import DocState.Proofs.Double.Integers

/-!
# Exact results

A sum, a difference or a product is computed exactly and then rounded.  What is rounded may be written with another
mantissa and another exponent than the double that it equals: terms are added with the smaller one of their exponents,
and the factors of a product together have twice as many bits as a double.

* `Holds f v`: what a double holds equals the rational number `v`.  `value?_eq_some_iff`, `Holds.value?`.
* `round_of_scaled_eq`, `roundWithAccuracy_of_scaled_eq`: rounding leaves what a double can hold as it is.
* `value?_add`, `value?_sub`, `value?_mul`: a result that some double equals is exact.
* `exists_value?_intCast`: integers up to `2 ^ 53` are doubles, so that operations on them are exact up to there.
-/

namespace DocState.Double

open Float.Model.UnpackedFloat

variable {m m' k : Nat} {e e' : Int} {s s' : Sign} {f : Float.Model.UnpackedFloat} {v w : Rat} {x y : Float}

/-! ## Numbers with a sign -/

/-- The number with a sign, a mantissa and an exponent. -/
def signed (s : Sign) (m : Nat) (e : Int) : Rat := (s.apply m : Int) * (2 : Rat) ^ e

theorem signed_positive (m : Nat) (e : Int) : signed .positive m e = scaled m e := by
  simp [signed, scaled, Sign.apply]

theorem signed_negative (m : Nat) (e : Int) : signed .negative m e = -scaled m e := by
  simp [signed, scaled, Sign.apply]

theorem scaled_pos (hm : 0 < m) (e : Int) : 0 < scaled m e :=
  mul_pos (Nat.cast_pos.2 hm) (zpow_pos (by decide) e)

theorem scaled_mul (m m' : Nat) (e e' : Int) : scaled (m * m') (e + e') = scaled m e * scaled m' e' := by
  unfold scaled
  rw [zpow_add₀ (by decide), Nat.cast_mul, mul_mul_mul_comm]

theorem signed_mul (s s' : Sign) (m m' : Nat) (e e' : Int) :
    signed (s * s') (m * m') (e + e') = signed s m e * signed s' m' e' := by
  cases s <;> cases s' <;> simp only [signed_positive, signed_negative]
  · show signed .positive _ _ = _
    rw [signed_positive, scaled_mul, neg_mul_neg]
  · show signed .negative _ _ = _
    rw [signed_negative, scaled_mul, neg_mul]
  · show signed .negative _ _ = _
    rw [signed_negative, scaled_mul, mul_neg]
  · show signed .positive _ _ = _
    rw [signed_positive, scaled_mul]

/-- Equal numbers that are not zero have the same sign. -/
theorem sign_eq_of_signed_eq (hm : 0 < m) (hm' : 0 < m') (h : signed s m e = signed s' m' e') :
    s = s' ∧ scaled m e = scaled m' e' := by
  have hpos := scaled_pos hm e
  have hpos' := scaled_pos hm' e'
  cases s <;> cases s' <;> simp only [signed_positive, signed_negative] at h
  · exact ⟨rfl, neg_inj.1 h⟩
  · linarith
  · linarith
  · exact ⟨rfl, h⟩

/-- With a smaller exponent the mantissa is longer. -/
theorem eq_mul_two_pow_of_scaled_eq (h : scaled m e = scaled m' (e + k)) : m = m' * 2 ^ k := by
  rw [scaled_add] at h
  exact Nat.cast_injective (mul_right_cancel₀ (zpow_ne_zero e (by decide)) h)

theorem log2_add_eq_of_scaled_eq (hm : 0 < m) (hm' : 0 < m') (h : scaled m e = scaled m' e') :
    (m.log2 : Int) + e = m'.log2 + e' := by
  rcases Int.le_total e e' with hle | hle
  · obtain ⟨k, rfl⟩ := Int.le.dest hle
    rw [eq_mul_two_pow_of_scaled_eq h, log2_mul_two_pow (Nat.ne_of_gt hm')]
    omega
  · obtain ⟨k, rfl⟩ := Int.le.dest hle
    rw [eq_mul_two_pow_of_scaled_eq h.symm, log2_mul_two_pow (Nat.ne_of_gt hm)]
    omega

/-! ## What a double holds -/

/-- What a double holds equals the rational number. -/
inductive Holds : Float.Model.UnpackedFloat → Rat → Prop
  | zero (s : Sign) : Holds (.zero s) 0
  | finite {s : Sign} {m : Nat} {e : Int} {hm : 0 < m} (h : Canonical (.finite s m e hm)) :
    Holds (.finite s m e hm) (signed s m e)

theorem value?_eq_some_iff : value? x = some v ↔ Holds x.toModel.unpack v := by
  have hcanonical : Canonical x.toModel.unpack := canonical_unpack _
  unfold value? read
  cases hx : x.toModel.unpack with
  | notANumber => exact ⟨nofun, nofun⟩
  | infinity s => exact ⟨nofun, nofun⟩
  | zero s =>
    have hzero : (Reading.finite (isMinus s) 0 0).value? = some 0 := by
      cases s <;> simp [Reading.value?, isMinus, scaled]
    constructor
    · intro h
      obtain rfl := Option.some.inj (hzero.symm.trans h)
      exact .zero s
    · rintro ⟨⟩
      exact hzero
  | finite s m e hm =>
    rw [hx] at hcanonical
    have hvalue : (Reading.finite (isMinus s) m e).value? = some (signed s m e) := by
      cases s
      · exact congrArg some (signed_negative m e).symm
      · exact congrArg some (signed_positive m e).symm
    constructor
    · intro h
      obtain rfl := Option.some.inj (hvalue.symm.trans h)
      exact .finite hcanonical
    · rintro ⟨⟩
      exact hvalue

theorem Holds.canonical (h : Holds f v) : Canonical f := by
  cases h with
  | zero s => exact .zero s
  | finite h => exact h

theorem Holds.value? (h : Holds f v) : value? (.ofModel (.pack f)) = some v := by
  rw [value?_eq_some_iff, unpack_ofModel_pack h.canonical]
  exact h

/-- What equals a number other than zero has its sign. -/
theorem Holds.exists_finite (hm : 0 < m) (h : Holds f (signed s m e)) :
    ∃ m' e', ∃ hm' : 0 < m', f = .finite s m' e' hm' ∧ scaled m e = scaled m' e' := by
  generalize hv : signed s m e = v at h
  cases h with
  | zero s' =>
    have hpos := scaled_pos hm e
    cases s <;> simp only [signed_positive, signed_negative] at hv <;> linarith
  | @finite s' m' e' hm' h =>
    obtain ⟨rfl, hscaled⟩ := sign_eq_of_signed_eq hm hm' hv
    exact ⟨m', e', hm', rfl, hscaled⟩

/-! ## Rounding -/

theorem Canonical.targetExponent {hm : 0 < m} (h : Canonical (.finite s m e hm)) :
    max ((m.log2 : Int) + 1 + e - 53) (-1074) = e := by
  cases h with
  | subnormal s hm hshort hleast =>
    have hlog : m.log2 < 52 := (Nat.log2_lt (Nat.ne_of_gt hm)).2 hshort
    omega
  | normal s hm hlong hlt hleast hgreatest =>
    have hlog := log2_eq hm hlong hlt
    omega

/-- Bits that are all zero are shifted out without a loss. -/
theorem roundWithAccuracy_of_scaled_eq {hm' : 0 < m'} (hf : Canonical (.finite s m' e' hm'))
    (h : scaled m e = scaled m' e') (hle : e ≤ e') :
    roundWithAccuracy binary64 s m e .exact = .finite s m' e' hm' := by
  obtain ⟨k, rfl⟩ := Int.le.dest hle
  obtain rfl := eq_mul_two_pow_of_scaled_eq h
  have htarget := hf.targetExponent
  have hlog := log2_mul_two_pow (Nat.ne_of_gt hm') k
  have hfirst := shiftToTargetExponent_eq (m := m' * 2 ^ k) (e := e) (n := k) (by omega)
  have hrounded := (shifted_shiftRight (m' * 2 ^ k) k).roundedMantissa
  rw [halfEven_mul_self (Nat.two_pow_pos k)] at hrounded
  have hsecond : shiftToTargetExponent binary64 m' (e + k) .exact = (.ofMantissaAndAccuracy m' .exact, e + k) := by
    have hnone := shiftToTargetExponent_eq (m := m') (e := e + k) (n := 0) (by omega)
    rwa [Int.natCast_zero, Int.add_zero] at hnone
  exact roundWithAccuracy_of_shifts hfirst ((congrArg (shiftToTargetExponent binary64 · _ _) hrounded).trans hsecond) hm'

/-- What a double can hold is not changed by rounding. -/
theorem round_of_scaled_eq (hm : 0 < m) {hm' : 0 < m'} (hf : Canonical (.finite s m' e' hm'))
    (h : scaled m e = scaled m' e') : round binary64 s m e = .finite s m' e' hm' := by
  have htarget : binary64.targetExponent (Float.Model.totalExponent m e) = e' := by
    have htotal := log2_add_eq_of_scaled_eq hm hm' h
    have hself := hf.targetExponent
    show max ((m.log2 : Int) + 1 + e - 53) (-1074) = e'
    omega
  unfold Float.Model.UnpackedFloat.round
  rw [htarget]
  show roundWithAccuracy binary64 s (m <<< (e - e').toNat) (e - (e - e').toNat) .exact = _
  refine roundWithAccuracy_of_scaled_eq hf ?_ (by omega)
  rw [← h, Nat.shiftLeft_eq, ← scaled_add, Int.sub_add_cancel]

theorem Holds.round (hm : 0 < m) (hf : Holds f (signed s m e)) : round binary64 s m e = f := by
  obtain ⟨m', e', hm', rfl, hscaled⟩ := hf.exists_finite hm
  exact round_of_scaled_eq hm hf.canonical hscaled

/-- An integer with an exponent is rounded to what it equals. -/
theorem Holds.normalize {i : Int} (hf : Holds f v) (hv : (i : Rat) * 2 ^ e = v) (s : Sign) :
    Holds (normalize binary64 i e s) v := by
  subst hv
  unfold Float.Model.UnpackedFloat.normalize
  rcases lt_trichotomy i 0 with hneg | rfl | hpos
  · have hsigned : (i : Rat) * 2 ^ e = signed .negative (-i).toNat e := by
      rw [signed, Sign.apply, Int.toNat_of_nonneg (by omega), Int.neg_neg]
    rw [Int.compare_eq_lt.2 hneg]
    rw [hsigned] at hf ⊢
    exact (hf.round (by omega)).symm ▸ hf
  · rw [Int.cast_zero, zero_mul]
    exact .zero s
  · have hsigned : (i : Rat) * 2 ^ e = signed .positive i.toNat e := by
      rw [signed, Sign.apply, Int.toNat_of_nonneg (by omega)]
    rw [Int.compare_eq_gt.2 hpos]
    rw [hsigned] at hf ⊢
    exact (hf.round (by omega)).symm ▸ hf

/-! ## Sums, differences and products -/

/-- With the smaller exponent of two, a number is still the same. -/
theorem signed_shiftLeft (s : Sign) (m : Nat) {e e' : Int} (hle : e' ≤ e) :
    ((s.apply (m <<< (e - e').toNat : Nat) : Int) : Rat) * 2 ^ e' = signed s m e := by
  obtain ⟨k, rfl⟩ := Int.le.dest hle
  have hshift : (e' + k - e').toNat = k := by omega
  rw [hshift, Nat.shiftLeft_eq]
  show signed s (m * 2 ^ k) e' = _
  cases s <;> simp only [signed_positive, signed_negative, scaled_add]

theorem Holds.add {f g h : Float.Model.UnpackedFloat} (hf : Holds f v) (hg : Holds g w) (hh : Holds h (v + w)) :
    Holds (add binary64 f g) (v + w) := by
  cases hf with
  | zero s =>
    cases hg with
    | zero s' =>
      rw [add_zero]
      cases s <;> cases s' <;> exact .zero _
    | finite hg =>
      rw [zero_add]
      exact .finite hg
  | @finite s m e hm hf =>
    cases hg with
    | zero s' =>
      rw [add_zero]
      exact .finite hf
    | @finite s' m' e' hm' hg =>
      refine hh.normalize ?_ .positive
      have hleft := signed_shiftLeft s m (Int.min_le_left e e')
      have hright := signed_shiftLeft s' m' (Int.min_le_right e e')
      rw [Int.cast_add, add_mul, hleft, hright]

/-- The product of two mantissas has at least as many bits as the mantissa of a double that it equals. -/
theorem add_le_of_scaled_eq {m₁ m₂ : Nat} {e₁ e₂ : Int} {s₁ s₂ : Sign} {hm : 0 < m} {hm₁ : 0 < m₁} {hm₂ : 0 < m₂}
    (h₁ : Canonical (.finite s₁ m₁ e₁ hm₁)) (h₂ : Canonical (.finite s₂ m₂ e₂ hm₂))
    (hf : Canonical (.finite s m e hm)) (h : scaled (m₁ * m₂) (e₁ + e₂) = scaled m e) : e₁ + e₂ ≤ e := by
  have hpos : 0 < m₁ * m₂ := Nat.mul_pos hm₁ hm₂
  have htotal := log2_add_eq_of_scaled_eq hpos hm h
  have htarget := hf.targetExponent
  have htarget₁ := h₁.targetExponent
  have htarget₂ := h₂.targetExponent
  have hlog₁ : m₁.log2 ≤ (m₁ * m₂).log2 :=
    (Nat.le_log2 (Nat.ne_of_gt hpos)).2 ((Nat.log2_self_le (Nat.ne_of_gt hm₁)).trans (Nat.le_mul_of_pos_right m₁ hm₂))
  have hlog₂ : m₂.log2 ≤ (m₁ * m₂).log2 :=
    (Nat.le_log2 (Nat.ne_of_gt hpos)).2 ((Nat.log2_self_le (Nat.ne_of_gt hm₂)).trans (Nat.le_mul_of_pos_left m₂ hm₁))
  omega

theorem Holds.mul {f g h : Float.Model.UnpackedFloat} (hf : Holds f v) (hg : Holds g w) (hh : Holds h (v * w)) :
    Holds (mul binary64 f g) (v * w) := by
  cases hf with
  | zero s =>
    rw [zero_mul]
    cases hg <;> exact .zero _
  | @finite s m e hm hf =>
    cases hg with
    | zero s' =>
      rw [mul_zero]
      exact .zero _
    | @finite s' m' e' hm' hg =>
      rw [← signed_mul] at hh ⊢
      obtain ⟨m₀, e₀, hm₀, rfl, hscaled⟩ := hh.exists_finite (Nat.mul_pos hm hm')
      have hle := add_le_of_scaled_eq hf hg hh.canonical hscaled
      show Holds (roundWithAccuracy binary64 (s * s') (m * m') (e + e') .exact) _
      rwa [roundWithAccuracy_of_scaled_eq hh.canonical hscaled hle]

/-- A sum that some double equals is exact. -/
theorem value?_add {z : Float} (hx : value? x = some v) (hy : value? y = some w) (hz : value? z = some (v + w)) :
    value? (x + y) = some (v + w) := by
  rw [value?_eq_some_iff] at hx hy hz
  exact (hx.add hy hz).value?

/-- A product that some double equals is exact. -/
theorem value?_mul {z : Float} (hx : value? x = some v) (hy : value? y = some w) (hz : value? z = some (v * w)) :
    value? (x * y) = some (v * w) := by
  rw [value?_eq_some_iff] at hx hy hz
  exact (hx.mul hy hz).value?

theorem apply_neg (s : Sign) (i : Int) : (-s).apply i = -s.apply i := by
  cases s
  · exact (Int.neg_neg i).symm
  · rfl

theorem sub_eq_add_neg_unpacked (f g : Float.Model.UnpackedFloat) : sub binary64 f g = add binary64 f g.neg := by
  cases f <;> cases g
  case finite.finite s m e hm s' m' e' hm' =>
    show normalize binary64 (s.apply _ - s'.apply _) _ _ = normalize binary64 (s.apply _ + (-s').apply _) _ _
    rw [apply_neg, Int.sub_eq_add_neg]
  all_goals rfl

/-- A difference is the sum with the opposite. -/
theorem sub_eq_add_opposite (x y : Float) : x - y = x + -y := by
  show Float.ofModel (.pack (sub binary64 x.toModel.unpack y.toModel.unpack)) =
    .ofModel (.pack (add binary64 x.toModel.unpack (-y).toModel.unpack))
  rw [unpack_neg, sub_eq_add_neg_unpacked]

/-- A difference that some double equals is exact. -/
theorem value?_sub {z : Float} (hx : value? x = some v) (hy : value? y = some w) (hz : value? z = some (v - w)) :
    value? (x - y) = some (v - w) := by
  have hopposite : value? (-y) = some (-w) := by rw [value?_neg, hy, Option.map_some]
  rw [sub_eq_add_neg] at hz ⊢
  rw [sub_eq_add_opposite]
  exact value?_add hx hopposite hz

/-! ## Integers -/

/-- Integers of at most 53 bits, and `2 ^ 53`, are doubles. -/
theorem exists_value?_intCast {i : Int} (hi : i.natAbs ≤ 2 ^ 53) : ∃ x, value? x = some (i : Rat) := by
  obtain ⟨x, hx⟩ := exists_value?_rounded i (log2_le_of_lt (by omega))
  exact ⟨x, by rw [hx, rounded_of_natAbs_le (by omega)]⟩

variable {i j : Int}

theorem value?_add_intCast (hx : value? x = some (i : Rat)) (hy : value? y = some (j : Rat))
    (h : (i + j).natAbs ≤ 2 ^ 53) : value? (x + y) = some ((i + j : Int) : Rat) := by
  obtain ⟨z, hz⟩ := exists_value?_intCast h
  rw [Int.cast_add] at hz ⊢
  exact value?_add hx hy hz

theorem value?_sub_intCast (hx : value? x = some (i : Rat)) (hy : value? y = some (j : Rat))
    (h : (i - j).natAbs ≤ 2 ^ 53) : value? (x - y) = some ((i - j : Int) : Rat) := by
  obtain ⟨z, hz⟩ := exists_value?_intCast h
  rw [Int.cast_sub] at hz ⊢
  exact value?_sub hx hy hz

theorem value?_mul_intCast (hx : value? x = some (i : Rat)) (hy : value? y = some (j : Rat))
    (h : (i * j).natAbs ≤ 2 ^ 53) : value? (x * y) = some ((i * j : Int) : Rat) := by
  obtain ⟨z, hz⟩ := exists_value?_intCast h
  rw [Int.cast_mul] at hz ⊢
  exact value?_mul hx hy hz

end DocState.Double
