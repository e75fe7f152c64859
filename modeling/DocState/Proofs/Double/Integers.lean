import Mathlib.Algebra.Order.Field.Rat
import Mathlib.Tactic.Linarith
import Mathlib.Tactic.Positivity
import Mathlib.Tactic.Ring
import DocState.Double.Literal
import DocState.Expression.Integer
import DocState.Proofs.Double.Rounding

/-!
# Integers as doubles

An integer that has more than 53 bits need not be a double.  Then it is rounded to the nearest one, which is an integer
again.

* `Double.rounded n`: the integer that the nearest double equals.
* `value?_ofDecimal`, `value?_neg_ofDecimal`: a run of digits, and its opposite, are read as that double.
* `abs_sub_rounded_le`: no double is nearer.  `rounded_eq_self_iff`: only doubles are read as they are.
* `Division.integer?_intCast`: the modes differ on fractions only.
-/

namespace DocState
namespace Double

open Float.Model.UnpackedFloat

variable {m k : Nat} {e : Int}

/-! ## Scaled numbers -/

theorem scaled_add (m k : Nat) (e : Int) : scaled m (e + k) = scaled (m * 2 ^ k) e := by
  unfold scaled
  rw [zpow_add₀ (by norm_num : (2 : Rat) ≠ 0), zpow_natCast]
  push_cast
  ring

theorem scaled_zero (m : Nat) : scaled m 0 = m := by
  unfold scaled
  rw [zpow_zero, mul_one]

theorem scaled_natCast (m k : Nat) : scaled m k = (m * 2 ^ k : Nat) := by
  rw [← scaled_zero, ← scaled_add, Int.zero_add]

theorem scaled_nonneg (m : Nat) (e : Int) : 0 ≤ scaled m e :=
  mul_nonneg (Nat.cast_nonneg m) (zpow_nonneg (by decide) e)

theorem scaled_lt_scaled {m' : Nat} (h : m < m') (e : Int) : scaled m e < scaled m' e := by
  unfold scaled
  exact mul_lt_mul_of_pos_right (Nat.cast_lt.2 h) (zpow_pos (by decide) e)

/-! ## The nearest double -/

/-- The natural number that the double nearest to `m` equals, from halfway the one with the even mantissa. -/
def roundedNat (m : Nat) : Nat := halfEven m (2 ^ (m.log2 - 52)) * 2 ^ (m.log2 - 52)

theorem roundedNat_of_log2_le (hm : m.log2 ≤ 52) : roundedNat m = m := by
  rw [roundedNat, Nat.sub_eq_zero_of_le hm, pow_zero, Nat.mul_one]
  simpa using halfEven_mul_self (q := m) (d := 1) (by decide)

theorem log2_mul_two_pow (hm : m ≠ 0) (k : Nat) : (m * 2 ^ k).log2 = m.log2 + k := by
  induction k with
  | zero => rw [pow_zero, Nat.mul_one, Nat.add_zero]
  | succ k ih =>
    have hne : m * 2 ^ k ≠ 0 := Nat.mul_ne_zero hm (Nat.ne_of_gt (Nat.two_pow_pos k))
    rw [pow_succ', Nat.mul_left_comm, Nat.log2_two_mul hne, ih]
    rfl

/-- The first 53 bits of `m`, rounded. -/
theorem scaled_halfEven (m : Nat) :
    scaled (halfEven (m * 2 ^ 53) (2 ^ (m.log2 + 1))) (m.log2 - 52) = roundedNat m := by
  by_cases hlog : m.log2 ≤ 52
  · obtain ⟨k, hk⟩ := Nat.exists_eq_add_of_le hlog
    have hmul : m * 2 ^ 53 = m * 2 ^ k * 2 ^ (m.log2 + 1) := by
      rw [Nat.mul_assoc, ← pow_add]
      congr 2
      omega
    have hexponent : (m.log2 : Int) - 52 + k = 0 := by omega
    rw [hmul, halfEven_mul_self (Nat.two_pow_pos _), ← scaled_add, hexponent, scaled_zero, roundedNat_of_log2_le hlog]
  · obtain ⟨k, hk⟩ := Nat.exists_eq_add_of_lt (Nat.not_le.1 hlog)
    have hpow : 2 ^ (m.log2 + 1) = 2 ^ (k + 1) * 2 ^ 53 := by
      rw [← pow_add]
      congr 1
      omega
    have hexponent : (m.log2 : Int) - 52 = (k + 1 : Nat) := by omega
    have hsub : m.log2 - 52 = k + 1 := by omega
    rw [hpow, halfEven_mul_right (Nat.two_pow_pos 53), hexponent, scaled_natCast, roundedNat, hsub]

theorem ofScientific_zero (hm : m ≠ 0) :
    ofScientific binary64 m 0 = roundWithAccuracy binary64 .positive (m * 2 ^ 53) (-53) .exact := by
  have hshift : (m <<< 53) * 1 = m * 2 ^ 53 := by
    rw [Nat.shiftLeft_eq]
    exact Nat.mul_one _
  have hleast : ¬((0 : Int) < -(2 ^ 11 + (m.log2 : Int))) := by omega
  unfold ofScientific
  rw [dif_neg hm, if_neg (by decide), if_neg hleast, if_pos (by decide)]
  show roundWithAccuracy binary64 .positive ((m <<< 53) * 1) (-53) .exact = _
  rw [hshift]

theorem value?_ofDecimal_roundedNat (hm : m.log2 ≤ 1022) : value? (ofDecimal m 0) = some (roundedNat m : Rat) := by
  by_cases hzero : m = 0
  · subst hzero
    have hvalue : value? (ofDecimal 0 0) = some (scaled 0 0) := by rfl
    rw [hvalue, roundedNat_of_log2_le (by decide), scaled_zero]
  · have hlog := log2_mul_two_pow hzero 53
    obtain ⟨m', e', hpos, hround, hlong, hlt, hparts⟩ := exists_roundWithAccuracy .positive (m := m * 2 ^ 53) (e := -53)
      (n := m.log2 + 1) (by omega) (by omega)
    have hcanonical : Canonical (.finite .positive m' e' hpos) := .normal _ hpos hlong hlt (by omega) (by omega)
    have hunpack : (ofDecimal m 0).toModel.unpack = .finite .positive m' e' hpos := by
      have hpack : ofDecimal m 0 = .ofModel (.pack (.finite .positive m' e' hpos)) := by
        rw [← hround, ← ofScientific_zero hzero]
        rfl
      rw [hpack, unpack_ofModel_pack hcanonical]
    have hvalue : value? (ofDecimal m 0) = some (scaled m' e') := by
      unfold value? read
      rw [hunpack]
      rfl
    have hexponent : (-53 : Int) + (m.log2 + 1 : Nat) = (m.log2 : Int) - 52 := by omega
    rw [hvalue, ← scaled_halfEven m, ← hexponent]
    obtain ⟨rfl, rfl⟩ | ⟨htwice, rfl⟩ := hparts
    · rfl
    · have hone : (-53 : Int) + (m.log2 + 1 : Nat) + 1 = -53 + (m.log2 + 1 : Nat) + (1 : Nat) := rfl
      rw [hone, scaled_add, pow_one, Nat.mul_comm, htwice]

/-! ## No double is nearer -/

theorem natAbs_sub_halfEven_le {d : Nat} (hd : 0 < d) (m j : Nat) :
    ((m : Int) - (halfEven m d * d : Nat)).natAbs ≤ ((m : Int) - (j * d : Nat)).natAbs := by
  have hm : d * (m / d) + m % d = m := Nat.div_add_mod m d
  have hlt : m % d < d := Nat.mod_lt m hd
  have hself : m / d * d = d * (m / d) := Nat.mul_comm _ _
  have hsucc : (m / d + 1) * d = d * (m / d) + d := by ring
  have hj : j * d ≤ m / d * d ∨ (m / d + 1) * d ≤ j * d :=
    (Nat.lt_or_ge (m / d) j).symm.imp (Nat.mul_le_mul_right d) (Nat.mul_le_mul_right d)
  unfold halfEven
  split
  · omega
  · split
    · omega
    · rcases Nat.mod_two_eq_zero_or_one (m / d) with h | h
      · rw [h, Nat.add_zero]
        omega
      · rw [h]
        omega

theorem abs_sub_halfEven_le {d : Nat} (hd : 0 < d) (m j : Nat) :
    |(m : Rat) - (halfEven m d * d : Nat)| ≤ |(m : Rat) - (j * d : Nat)| := by
  have h := natAbs_sub_halfEven_le hd m j
  rw [← Int.ofNat_le, Int.natCast_natAbs, Int.natCast_natAbs] at h
  exact_mod_cast h

/-- A number with a mantissa of at most 53 bits that is not below `2 ^ (52 + k)` is a multiple of `2 ^ k`. -/
theorem exists_scaled_eq_mul (hm : m < 9007199254740992) (hle : ((2 ^ 52 * 2 ^ k : Nat) : Rat) ≤ scaled m e) :
    ∃ j : Nat, scaled m e = (j * 2 ^ k : Nat) := by
  have hk : (k : Int) ≤ e := by
    by_contra hlt
    obtain ⟨i, hi⟩ := Int.le.dest (Int.add_one_le_of_lt (Int.not_le.1 hlt))
    have hexponent : (k : Int) = e + (i + 1 : Nat) := by omega
    rw [← scaled_natCast, hexponent, scaled_add] at hle
    have hbits : m < 2 ^ 52 * 2 ^ (i + 1) := by
      have hpos : 0 < 2 ^ i := Nat.two_pow_pos i
      rw [pow_succ]
      omega
    exact absurd (scaled_lt_scaled hbits e) (not_lt.2 hle)
  obtain ⟨i, rfl⟩ := Int.le.dest hk
  exact ⟨m * 2 ^ i, by rw [scaled_add, scaled_natCast, Nat.mul_right_comm]⟩

/-- No number with a mantissa of at most 53 bits is nearer, above zero or below. -/
theorem abs_sub_roundedNat_le (n : Nat) (hm : m < 9007199254740992) {v : Rat} (hv : v = scaled m e ∨ v = -scaled m e) :
    |(n : Rat) - roundedNat n| ≤ |(n : Rat) - v| := by
  by_cases hlog : n.log2 ≤ 52
  · rw [roundedNat_of_log2_le hlog, sub_self, abs_zero]
    exact abs_nonneg _
  · obtain ⟨k, hk⟩ := Nat.exists_eq_add_of_lt (Nat.not_le.1 hlog)
    have hsub : n.log2 - 52 = k + 1 := by omega
    have hnearest := abs_sub_halfEven_le (Nat.two_pow_pos (k + 1)) n
    rw [roundedNat, hsub]
    by_cases hbig : ((2 ^ 52 * 2 ^ (k + 1) : Nat) : Rat) ≤ v
    · rcases hv with rfl | rfl
      · obtain ⟨j, hj⟩ := exists_scaled_eq_mul hm hbig
        rw [hj]
        exact hnearest j
      · have hpos : (0 : Rat) < (2 ^ 52 * 2 ^ (k + 1) : Nat) := Nat.cast_pos.2 (by positivity)
        have hnonneg := scaled_nonneg m e
        linarith
    · -- what lies below the greatest power of two up to `n` is farther away than that power
      have hpower : 2 ^ 52 * 2 ^ (k + 1) ≤ n := by
        rw [← pow_add, show 52 + (k + 1) = n.log2 by omega]
        exact Nat.log2_self_le (by rintro rfl; exact hlog (by decide))
      have hcast : ((2 ^ 52 * 2 ^ (k + 1) : Nat) : Rat) ≤ n := Nat.cast_le.2 hpower
      refine (hnearest (2 ^ 52)).trans ?_
      rw [abs_of_nonneg (sub_nonneg.2 hcast), abs_of_nonneg (by linarith)]
      linarith

/-! ## Integers -/

/-- The integer that the double nearest to `n` equals, from halfway the one with the even mantissa. -/
def rounded (n : Int) : Int := if n < 0 then -roundedNat n.natAbs else roundedNat n.natAbs

theorem rounded_natCast (m : Nat) : rounded m = roundedNat m := by
  rw [rounded, if_neg (Int.not_lt.2 (Int.natCast_nonneg m)), Int.natAbs_natCast]

theorem rounded_neg_natCast (m : Nat) : rounded (-m) = -roundedNat m := by
  rcases Nat.eq_zero_or_pos m with rfl | hpos
  · rfl
  · rw [rounded, if_pos (by omega), Int.natAbs_neg, Int.natAbs_natCast]

theorem rounded_of_natAbs_le {n : Int} (hn : n.natAbs ≤ 9007199254740992) : rounded n = n := by
  have hself : ∀ m : Nat, m ≤ 9007199254740992 → roundedNat m = m := by
    intro m hm
    rcases Nat.lt_or_eq_of_le hm with hlt | rfl
    · rcases Nat.eq_zero_or_pos m with rfl | hpos
      · rfl
      · exact roundedNat_of_log2_le (Nat.le_of_lt_succ (log2_lt hpos hlt))
    · decide
  obtain ⟨m, rfl | rfl⟩ := n.eq_nat_or_neg
  · rw [rounded_natCast, hself m (by simpa using hn)]
  · rw [rounded_neg_natCast, hself m (by simpa using hn)]

theorem value?_ofDecimal (hm : m.log2 ≤ 1022) : value? (ofDecimal m 0) = some (rounded m : Rat) := by
  rw [value?_ofDecimal_roundedNat hm, rounded_natCast, Int.cast_natCast]

theorem value?_neg_ofDecimal (hm : m.log2 ≤ 1022) : value? (-ofDecimal m 0) = some (rounded (-m) : Rat) := by
  rw [value?_neg, value?_ofDecimal_roundedNat hm, rounded_neg_natCast, Int.cast_neg, Int.cast_natCast]
  rfl

theorem log2_le_of_lt (hm : m < 18446744073709551616) : m.log2 ≤ 1022 := by
  rcases Nat.eq_zero_or_pos m with rfl | hpos
  · decide
  · have hlog : m.log2 < 64 := (Nat.log2_lt (Nat.ne_of_gt hpos)).2 hm
    omega

theorem exists_value?_rounded (n : Int) (hn : n.natAbs.log2 ≤ 1022) : ∃ x, value? x = some (rounded n : Rat) := by
  obtain ⟨m, rfl | rfl⟩ := n.eq_nat_or_neg
  · rw [Int.natAbs_natCast] at hn
    exact ⟨_, value?_ofDecimal hn⟩
  · rw [Int.natAbs_neg, Int.natAbs_natCast] at hn
    exact ⟨_, value?_neg_ofDecimal hn⟩

/-- No double is nearer to an integer than the one that it is rounded to. -/
theorem abs_sub_rounded_le (n : Int) {x : Float} {v : Rat} (h : value? x = some v) :
    |(n : Rat) - rounded n| ≤ |(n : Rat) - v| := by
  obtain ⟨m, e, hm, hv⟩ := exists_scaled_of_value? h
  obtain ⟨k, rfl | rfl⟩ := n.eq_nat_or_neg
  · rw [rounded_natCast]
    exact_mod_cast abs_sub_roundedNat_le k hm hv
  · have hopposite : -v = scaled m e ∨ -v = -scaled m e := by
      rcases hv with rfl | rfl
      · exact .inr rfl
      · exact .inl (neg_neg _)
    have hnear := abs_sub_roundedNat_le k hm hopposite
    rw [rounded_neg_natCast, ← abs_neg, ← abs_neg (_ - v)]
    push_cast
    rwa [show -(-(k : Rat) - -(roundedNat k : Rat)) = k - roundedNat k by ring,
      show -(-(k : Rat) - v) = k - -v by ring]

/-- An integer is rounded to itself if and only if it is a double. -/
theorem rounded_eq_self_iff (n : Int) (hn : n.natAbs.log2 ≤ 1022) : rounded n = n ↔ ∃ x, value? x = some (n : Rat) := by
  constructor
  · intro hself
    obtain ⟨x, hx⟩ := exists_value?_rounded n hn
    exact ⟨x, hself ▸ hx⟩
  · rintro ⟨x, hx⟩
    have hnear := abs_sub_rounded_le n hx
    rw [sub_self, abs_zero, abs_nonpos_iff, sub_eq_zero] at hnear
    exact_mod_cast hnear.symm

theorem towardZero_intCast (i : Int) : towardZero i = i := by
  rw [towardZero, Rat.ceil_intCast, Rat.floor_intCast, ite_self]

theorem nearest_intCast (i : Int) : nearest i = i := by
  have hdown : ((i : Rat) - 1 / 2).ceil = i :=
    Int.le_antisymm (Rat.ceil_le_iff.2 (by linarith))
      (Int.le_of_sub_one_lt (Rat.lt_ceil_iff.2 (by push_cast; linarith)))
  have hup : ((i : Rat) + 1 / 2).floor = i :=
    Int.le_antisymm (Int.le_of_lt_add_one (Rat.floor_lt_iff.2 (by push_cast; linarith)))
      (Rat.le_floor_iff.2 (by linarith))
  rw [nearest, hdown, hup, ite_self]

end Double

/-- An integer is left as it is in every mode. -/
theorem Division.integer?_intCast (division : Division) (i : Int) : division.integer? i = some i := by
  cases division with
  | rounded => exact congrArg some (Double.nearest_intCast i)
  | truncated => exact congrArg some (Double.towardZero_intCast i)
  | real => rfl

end DocState
