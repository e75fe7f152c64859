import Mathlib.Algebra.Group.Nat.Defs
import DocState.Proofs.Double.Packing

/-!
# Rounding to a double

A result is rounded by shifting its bits out on the right.  The last bit that has gone out, and whether a bit before it
was set, tell on which side of the middle the rest lies.

* `Double.halfEven m d`: the natural number nearest to `m / d`, from halfway to the even one.
* `Shifted m d em`: the bits of `m / d`, cut, and what has gone out.
* `shifted_shiftRight`: shifting divides by powers of two.  `Shifted.roundedMantissa`: what is shifted is rounded to
  the nearest number.
* `exists_roundWithAccuracy`: what a number with at least 53 bits is rounded to.
-/

namespace DocState.Double

open Float.Model.UnpackedFloat

/-! ## The nearest natural number -/

/-- The natural number nearest to `m / d`; from halfway between two the even one. -/
def halfEven (m d : Nat) : Nat :=
  if 2 * (m % d) < d then m / d
  else if d < 2 * (m % d) then m / d + 1
  else m / d + m / d % 2

variable {m d k n q : Nat}

theorem halfEven_mul_right (hk : 0 < k) : halfEven (m * k) (d * k) = halfEven m d := by
  have hiff : ∀ a b : Nat, 2 * (a * k) < b * k ↔ 2 * a < b := fun a b => by
    rw [← Nat.mul_assoc]
    exact Nat.mul_lt_mul_right hk
  have hiff' : ∀ a b : Nat, b * k < 2 * (a * k) ↔ b < 2 * a := fun a b => by
    rw [← Nat.mul_assoc]
    exact Nat.mul_lt_mul_right hk
  simp only [halfEven, Nat.mul_mod_mul_right, Nat.mul_div_mul_right m d hk, hiff, hiff']

theorem halfEven_mul_self (hd : 0 < d) : halfEven (q * d) d = q := by
  rw [halfEven, Nat.mul_mod_left, if_pos (by omega), Nat.mul_div_cancel q hd]

theorem div_le_halfEven (m d : Nat) : m / d ≤ halfEven m d := by
  unfold halfEven
  split
  · exact Nat.le_refl _
  · split <;> exact Nat.le_add_right _ _

theorem halfEven_le_succ (m d : Nat) : halfEven m d ≤ m / d + 1 := by
  have hbit : m / d % 2 < 2 := Nat.mod_lt _ (by decide)
  unfold halfEven
  split
  · exact Nat.le_succ _
  · split <;> omega

/-! ## Shifting -/

/-- The bits of `m / d`, cut.  The first bit behind the cut is set from the middle on, and another one behind it is set
unless nothing has been cut off or just one half. -/
structure Shifted (m d : Nat) (em : ExtendedMantissa) : Prop where
  mantissa : em.mantissa = m / d
  roundBit : em.roundBit = true ↔ d ≤ 2 * (m % d)
  stickyBit : em.stickyBit = true ↔ m % d ≠ 0 ∧ 2 * (m % d) ≠ d

theorem shifted_exact (m : Nat) : Shifted m 1 (.ofMantissaAndAccuracy m .exact) where
  mantissa := (Nat.div_one m).symm
  roundBit := by simp [ExtendedMantissa.ofMantissaAndAccuracy, Nat.mod_one]
  stickyBit := by simp [ExtendedMantissa.ofMantissaAndAccuracy, Nat.mod_one]

theorem Shifted.shiftRightOne {em : ExtendedMantissa} (hd : 0 < d) (h : Shifted m d em) :
    Shifted m (d * 2) em.shiftRightOne := by
  have hlt : m % d < d := Nat.mod_lt m hd
  have hmod : m % (d * 2) = m % d + d * (m / d % 2) := Nat.mod_mul
  have hcut : m / d % 2 = 0 ∧ m % (d * 2) = m % d ∨ m / d % 2 = 1 ∧ m % (d * 2) = m % d + d := by
    rcases Nat.mod_two_eq_zero_or_one (m / d) with hbit | hbit
    · rw [hmod, hbit]
      simp
    · rw [hmod, hbit]
      simp
  refine ⟨?_, ?_, ?_⟩
  · rw [← Nat.div_div_eq_div_mul, ← h.mantissa]
    rfl
  · have hbit : em.shiftRightOne.roundBit = true ↔ m / d % 2 = 1 := by
      rw [← h.mantissa]
      simp [ExtendedMantissa.shiftRightOne]
    rw [hbit]
    omega
  · have hbit : em.shiftRightOne.stickyBit = true ↔ em.roundBit = true ∨ em.stickyBit = true := by
      simp [ExtendedMantissa.shiftRightOne]
    rw [hbit, h.roundBit, h.stickyBit]
    omega

theorem shifted_shiftRight (m n : Nat) : Shifted m (2 ^ n) (ExtendedMantissa.ofMantissaAndAccuracy m .exact >>> n) := by
  induction n with
  | zero => exact shifted_exact m
  | succ n ih => exact pow_succ 2 n ▸ ih.shiftRightOne (Nat.two_pow_pos n)

theorem Shifted.roundedMantissa {em : ExtendedMantissa} (h : Shifted m d em) : em.roundedMantissa = halfEven m d := by
  obtain ⟨hmantissa, hround, hsticky⟩ := h
  obtain ⟨mantissa, roundBit, stickyBit⟩ := em
  subst hmantissa
  unfold halfEven
  cases roundBit <;> cases stickyBit <;>
    simp only [Bool.false_eq_true, false_iff, true_iff] at hround hsticky
  · rw [if_pos (by omega)]
    rfl
  · rw [if_pos (by omega)]
    rfl
  · rw [if_neg (by omega), if_neg (by omega)]
    rfl
  · rw [if_neg (by omega), if_pos (by omega)]
    rfl

/-! ## Rounding -/

theorem shiftToTargetExponent_eq {m : Nat} {e : Int} {n : Nat}
    (hn : max ((m.log2 : Int) + 1 + e - 53) (-1074) = e + n) :
    shiftToTargetExponent binary64 m e .exact = (ExtendedMantissa.ofMantissaAndAccuracy m .exact >>> n, e + n) := by
  have htarget : binary64.targetExponent (Float.Model.totalExponent m e) = e + n := hn
  rw [shiftToTargetExponent]
  show shiftToExponent m e .exact _ = _
  rw [htarget, shiftToExponent]
  have hshift : (e + n - e).toNat = n := by omega
  simp only [hshift]

theorem roundWithAccuracy_of_shifts {s : Sign} {m : Nat} {e e₁ e₂ : Int} {em₁ em₂ : ExtendedMantissa}
    (hfirst : shiftToTargetExponent binary64 m e .exact = (em₁, e₁))
    (hsecond : shiftToTargetExponent binary64 em₁.roundedMantissa e₁ .exact = (em₂, e₂)) (hpos : 0 < em₂.mantissa) :
    roundWithAccuracy binary64 s m e .exact = .finite s em₂.mantissa e₂ hpos := by
  unfold roundWithAccuracy
  rw [hfirst]
  dsimp only
  rw [hsecond]
  exact dif_neg (Nat.ne_of_gt hpos)

/-- The first 53 bits of a number, rounded. -/
theorem halfEven_two_pow_bounds {m n : Nat} (hm : m.log2 = 52 + n) :
    4503599627370496 ≤ halfEven m (2 ^ n) ∧ halfEven m (2 ^ n) ≤ 9007199254740992 := by
  have hpos : m ≠ 0 := by
    rintro rfl
    have hzero : Nat.log2 0 = 0 := by decide
    omega
  have hlow : 2 ^ 52 * 2 ^ n ≤ m := by
    rw [← pow_add, ← hm]
    exact Nat.log2_self_le hpos
  have hhigh : m < 2 ^ 53 * 2 ^ n := by
    rw [← pow_add, show 53 + n = m.log2 + 1 by omega]
    exact Nat.lt_log2_self
  have hleast : 2 ^ 52 ≤ m / 2 ^ n := (Nat.le_div_iff_mul_le (Nat.two_pow_pos n)).2 hlow
  have hgreatest : m / 2 ^ n < 2 ^ 53 := (Nat.div_lt_iff_lt_mul (Nat.two_pow_pos n)).2 hhigh
  have hdown := div_le_halfEven m (2 ^ n)
  have hup := halfEven_le_succ m (2 ^ n)
  omega

/-- Bits that have been rounded up to a power of two are one bit too many, which is zero. -/
theorem exists_shiftToTargetExponent {m : Nat} {e : Int} (hleast : 4503599627370496 ≤ m)
    (hgreatest : m ≤ 9007199254740992) (he : -1074 ≤ e) :
    ∃ em e', shiftToTargetExponent binary64 m e .exact = (em, e') ∧
      4503599627370496 ≤ em.mantissa ∧ em.mantissa < 9007199254740992 ∧
      (em.mantissa = m ∧ e' = e ∨ 2 * em.mantissa = m ∧ e' = e + 1) := by
  by_cases hfull : m = 9007199254740992
  · subst hfull
    have hlog : (9007199254740992 : Nat).log2 = 53 := by decide
    have hshift := shiftToTargetExponent_eq (m := 9007199254740992) (e := e) (n := 1) (by omega)
    exact ⟨_, _, hshift, by decide, by decide, .inr ⟨rfl, rfl⟩⟩
  · have hlog := log2_eq (m := m) (by omega) hleast (by omega)
    have hshift := shiftToTargetExponent_eq (m := m) (e := e) (n := 0) (by omega)
    exact ⟨_, _, hshift, hleast, Nat.lt_of_le_of_ne hgreatest hfull, .inl ⟨rfl, Int.add_zero e⟩⟩

/-- A number with at least 53 bits keeps the first 53 of them, rounded. -/
theorem exists_roundWithAccuracy (s : Sign) {m : Nat} {e : Int} {n : Nat} (hm : m.log2 = 52 + n)
    (he : -1074 ≤ e + n) :
    ∃ m' e', ∃ hm' : 0 < m', roundWithAccuracy binary64 s m e .exact = .finite s m' e' hm' ∧
      4503599627370496 ≤ m' ∧ m' < 9007199254740992 ∧
      (m' = halfEven m (2 ^ n) ∧ e' = e + n ∨ 2 * m' = halfEven m (2 ^ n) ∧ e' = e + n + 1) := by
  have hfirst := shiftToTargetExponent_eq (m := m) (e := e) (n := n) (by omega)
  have hrounded := (shifted_shiftRight m n).roundedMantissa
  obtain ⟨hleast, hgreatest⟩ := halfEven_two_pow_bounds hm
  obtain ⟨em, e', hsecond, hlong, hlt, hparts⟩ := exists_shiftToTargetExponent hleast hgreatest he
  rw [← hrounded] at hsecond
  have hpos : 0 < em.mantissa := Nat.lt_of_lt_of_le (by decide) hlong
  exact ⟨em.mantissa, e', hpos, roundWithAccuracy_of_shifts hfirst hsecond hpos, hlong, hlt, hparts⟩

end DocState.Double
