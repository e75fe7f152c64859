import Mathlib.Data.List.TakeWhile
import DocState.Proofs.Double.Integers
import DocState.Proofs.Expression.Recognition

/-!
# Decimal integers, read in two ways

A number at the start of an argument is read digit by digit.  An expression is read as a double, and an integer that is
not one becomes the nearest one that is.

* `Decimal.Denotes t i`: digits, perhaps behind a sign, and the integer that they denote.  `Decimal.denotes_ofInt`: the
  decimal text of an integer is of this kind.
* `Number.ofText?_eq_ofInt?`: a numeral is read digit by digit, and in the range its integer is a number.
* `Number.ofInt?_rounded`: the nearest double is a number, or lies beyond the greatest one.
* `Expression.exists_integer_of_denotes`: the expression has the value of the nearest double, in every mode.
-/

namespace DocState

/-! ## Decimal text -/

namespace Decimal

/-- Decimal digits, zeros in front or not, with a sign or without one, and the integer that they denote. -/
inductive Denotes : Text → Int → Prop
  | plain {digits : Text} (hdigits : isRun digits = true) : Denotes digits (value digits)
  | plus {digits : Text} (hdigits : isRun digits = true) : Denotes ('+' :: digits) (value digits)
  | minus {digits : Text} (hdigits : isRun digits = true) : Denotes ('-' :: digits) (-value digits)

theorem denotes_ofInt (i : Int) : Denotes (ofInt i) i := by
  cases i with
  | ofNat n =>
    have h : Denotes (ofNat n) (value (ofNat n)) := .plain (isRun_ofNat n)
    rwa [value_ofNat] at h
  | negSucc n =>
    have h : Denotes ('-' :: ofNat (n + 1)) (-value (ofNat (n + 1))) := .minus (isRun_ofNat (n + 1))
    rwa [value_ofNat] at h

variable {digits : Text}

theorem isDigit_of_isRun (h : isRun digits = true) {c : Char} (hc : c ∈ digits) : c.isDigit = true := by
  rw [isRun, Bool.and_eq_true, List.all_eq_true] at h
  exact h.2 c hc

theorem exists_cons_of_isRun (h : isRun digits = true) : ∃ c rest, digits = c :: rest ∧ c.isDigit = true := by
  cases digits with
  | nil => cases h
  | cons c rest => exact ⟨c, rest, rfl, isDigit_of_isRun h List.mem_cons_self⟩

end Decimal

open Decimal

/-! ## Reading digit by digit -/

namespace Number

/-- An integer in the range is a number. -/
theorem exists_ofInt? {i : Int} (hlow : lowest ≤ i) (hhigh : i ≤ highest) :
    ∃ n : Number, n.toInt = i ∧ ofInt? i = some n := by
  refine ⟨.ofInt i, ?_, if_pos ⟨hlow, hhigh⟩⟩
  unfold lowest at hlow
  unfold highest at hhigh
  exact Int64.toInt_ofInt_of_le hlow (by omega)

theorem ofInt?_toInt (n : Number) : ofInt? n.toInt = some n := by
  rw [ofInt?, if_pos ⟨lowest_le_toInt n, toInt_le_highest n⟩, Int64.ofInt_toInt]

theorem ofInt?_eq_some_iff {i : Int} {n : Number} : ofInt? i = some n ↔ n.toInt = i := by
  constructor
  · intro h
    unfold ofInt? at h
    split at h
    · rename_i hrange
      obtain ⟨m, hm, hsome⟩ := exists_ofInt? hrange.1 hrange.2
      rw [ofInt?, if_pos hrange, h] at hsome
      rwa [Option.some.inj hsome]
    · cases h
  · rintro rfl
    exact ofInt?_toInt n

theorem ofInt?_eq_none_iff {i : Int} : ofInt? i = none ↔ i < lowest ∨ highest < i := by
  rw [ofInt?, ite_eq_right_iff]
  constructor
  · intro h
    by_contra hrange
    exact absurd (h (by omega)) (Option.some_ne_none _)
  · intro houtside hrange
    omega

theorem isBlank_eq_false_of_isDigit {c : Char} (h : c.isDigit = true) : isBlank c = false :=
  Expression.isBlank_eq_false_of_isLiteralChar (by simp [Expression.isLiteralChar, h])

theorem isSign_eq_false_of_isDigit {c : Char} (h : c.isDigit = true) : isSign c = false := by
  by_contra hsign
  rw [Bool.not_eq_false, isSign, Bool.or_eq_true, beq_iff_eq, beq_iff_eq] at hsign
  rcases hsign with rfl | rfl <;> exact absurd h (by decide)

theorem isBlank_eq_false_of_isSign {c : Char} (h : isSign c = true) : isBlank c = false := by
  rw [isSign, Bool.or_eq_true, beq_iff_eq, beq_iff_eq] at h
  rcases h with rfl | rfl <;> decide

theorem ofText?_of_isRun {digits : Text} (h : isRun digits = true) : ofText? digits = ofInt? (value digits) := by
  obtain ⟨c, rest, rfl, hc⟩ := exists_cons_of_isRun h
  unfold ofText?
  split
  · rename_i heq
    obtain ⟨rfl, rfl⟩ := List.cons.inj heq
    exact absurd hc (by decide)
  · rename_i heq
    obtain ⟨rfl, rfl⟩ := List.cons.inj heq
    exact absurd hc (by decide)
  · exact if_pos h

/-- A numeral is read if its integer is in the range. -/
theorem ofText?_eq_ofInt? {t : Text} {i : Int} (h : Denotes t i) : ofText? t = ofInt? i := by
  cases h with
  | plain hdigits => exact ofText?_of_isRun hdigits
  | plus hdigits => exact if_pos hdigits
  | minus hdigits => exact if_pos hdigits

theorem ofText?_of_denotes {t : Text} {n : Number} (h : Denotes t n.toInt) : ofText? t = some n := by
  rw [ofText?_eq_ofInt? h, ofInt?_toInt]

/-! ## Numbers as doubles -/

theorem log2_natAbs_toInt_le (n : Number) : n.toInt.natAbs.log2 ≤ 1022 := by
  have hlow : lowest ≤ n.toInt := lowest_le_toInt n
  have hhigh : n.toInt ≤ highest := toInt_le_highest n
  unfold lowest at hlow
  unfold highest at hhigh
  exact Double.log2_le_of_lt (by omega)

/-- The least number is a double, so that no number is rounded beyond it. -/
theorem lowest_le_rounded (n : Number) : lowest ≤ Double.rounded n.toInt := by
  have hdouble : Double.value? (-Double.ofDecimal 9223372036854775808 0) = some (lowest : Rat) :=
    Double.value?_neg_ofDecimal (m := 9223372036854775808) (by decide)
  have hnear := Double.abs_sub_rounded_le n.toInt hdouble
  have hleast : (lowest : Rat) ≤ n.toInt := Int.cast_le.2 (lowest_le_toInt n)
  rw [abs_of_nonneg (sub_nonneg.2 hleast)] at hnear
  have hrounded : (lowest : Rat) ≤ Double.rounded n.toInt := by
    have := le_abs_self ((n.toInt : Rat) - Double.rounded n.toInt)
    linarith
  exact Int.cast_le.1 hrounded

/-- A number is rounded to a number, or beyond the greatest one. -/
theorem ofInt?_rounded (n : Number) :
    (∃ v : Number, v.toInt = Double.rounded n.toInt ∧ ofInt? (Double.rounded n.toInt) = some v) ∨
      highest < Double.rounded n.toInt ∧ ofInt? (Double.rounded n.toInt) = none := by
  have hlow : lowest ≤ Double.rounded n.toInt := lowest_le_rounded n
  by_cases hhigh : Double.rounded n.toInt ≤ highest
  · exact .inl (exists_ofInt? hlow hhigh)
  · exact .inr ⟨Int.not_le.1 hhigh, if_neg fun hrange => hhigh hrange.2⟩

end Number

/-! ## Reading as a double -/

namespace Expression

theorem value_text (e : Infix .sum) : value e.text = .ok e.tree.value :=
  value_of_withoutBlanks e (withoutBlanks_text e).symm

variable {digits : Text}

/-- Digits are a literal, unless there are too many of them. -/
theorem ofLiteral?_of_isRun (h : isRun digits = true) (hbound : (Decimal.value digits).log2 ≤ 1022) :
    Double.ofLiteral? digits = some (Double.ofDecimal (Decimal.value digits) 0) := by
  have hpoint : ∀ c ∈ digits, (c != '.') = true := by
    intro c hc
    rw [bne_iff_ne]
    rintro rfl
    exact absurd (isDigit_of_isRun h hc) (by decide)
  have htake : digits.takeWhile (· != '.') = digits := List.takeWhile_eq_self_iff.2 hpoint
  have hdrop : digits.dropWhile (· != '.') = [] := List.dropWhile_eq_nil_iff.2 hpoint
  have hfinite : (Double.ofDecimal (Decimal.value digits) 0).isFinite = true := by
    rw [Double.isFinite_eq_isSome, Double.value?_ofDecimal hbound]
    rfl
  unfold Double.ofLiteral?
  simp only [htake, hdrop, List.drop_nil, List.append_nil, List.length_nil, h, hfinite, Bool.and_self, if_true]

/-- The text of an integer is an expression, and its value is the nearest double. -/
theorem exists_value_of_denotes {t : Text} {i : Int} (h : Denotes t i) (hi : i.natAbs.log2 ≤ 1022) :
    ∃ x, value t = .ok x ∧ Double.value? x = some (Double.rounded i : Rat) := by
  cases h with
  | plain hdigits =>
    rw [Int.natAbs_natCast] at hi
    let l : Literal := ⟨t, _, ofLiteral?_of_isRun hdigits hi⟩
    exact ⟨_, value_text (.product (.factor (.signed [] (.literal l)))), Double.value?_ofDecimal hi⟩
  | @plus digits hdigits =>
    rw [Int.natAbs_natCast] at hi
    let l : Literal := ⟨digits, _, ofLiteral?_of_isRun hdigits hi⟩
    exact ⟨_, value_text (.product (.factor (.signed [.plus] (.literal l)))), Double.value?_ofDecimal hi⟩
  | @minus digits hdigits =>
    rw [Int.natAbs_neg, Int.natAbs_natCast] at hi
    let l : Literal := ⟨digits, _, ofLiteral?_of_isRun hdigits hi⟩
    exact ⟨_, value_text (.product (.factor (.signed [.minus] (.literal l)))), Double.value?_neg_ofDecimal hi⟩

theorem integer_eq_elim {t : Text} {x : Float} (hx : value t = .ok x) (division : Division) :
    integer division t =
      (((Double.value? x).bind division.integer?).bind Number.ofInt?).elim (.error (.invalidNumber t)) .ok := by
  simp only [integer, hx, bind, Except.bind]
  cases ((Double.value? x).bind division.integer?).bind Number.ofInt? <;> rfl

/-- The value of a decimal integer is that of the nearest double, in every mode, unless it is beyond the greatest
number. -/
theorem exists_integer_of_denotes {t : Text} {n : Number} (h : Denotes t n.toInt) :
    ∃ result, (∀ division, integer division t = result) ∧
      ((∃ v, result = .ok v ∧ v.toInt = Double.rounded n.toInt) ∨
        result = .error (.invalidNumber t) ∧ Number.highest < Double.rounded n.toInt) := by
  obtain ⟨x, hx, hvalue⟩ := exists_value_of_denotes h n.log2_natAbs_toInt_le
  refine ⟨(Number.ofInt? (Double.rounded n.toInt)).elim (.error (.invalidNumber t)) .ok, ?_, ?_⟩
  · intro division
    rw [integer_eq_elim hx, hvalue, Option.bind_some, division.integer?_intCast, Option.bind_some]
  · obtain ⟨v, hv, hsome⟩ | ⟨hbeyond, hnone⟩ := Number.ofInt?_rounded n
    · exact .inl ⟨v, by rw [hsome, Option.elim_some], hv⟩
    · exact .inr ⟨by rw [hnone, Option.elim_none], hbeyond⟩

end Expression
end DocState
