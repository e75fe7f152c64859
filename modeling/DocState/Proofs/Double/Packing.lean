import DocState.Double.Exact

/-!
# What a double holds

A double is packed from a sign, an exponent field of 11 bits and a mantissa field of 52 bits.  What it holds is unpacked
again without a loss.

* `Double.Canonical`: what a double can hold.
* `canonical_unpack`, `unpack_pack`: every double holds something canonical, and holds what is packed into it if that is
  canonical.
* `value?_neg`, `exists_scaled_of_value?`: the rational number that the opposite of a double equals, and the bits of one.
-/

namespace DocState.Double

open Float.Model.UnpackedFloat

/-- The format of doubles. -/
abbrev binary64 : Float.Model.Format := .binary64

/-- What a double can hold.  A normal number has a mantissa of 53 bits, of which the first is not stored, and a
subnormal number has a shorter one and the least exponent. -/
inductive Canonical : Float.Model.UnpackedFloat → Prop
  | notANumber : Canonical .notANumber
  | infinity (s : Sign) : Canonical (.infinity s)
  | zero (s : Sign) : Canonical (.zero s)
  | subnormal (s : Sign) {m : Nat} {e : Int} (hm : 0 < m) (hshort : m < 4503599627370496) (hleast : e = -1074) :
    Canonical (.finite s m e hm)
  | normal (s : Sign) {m : Nat} {e : Int} (hm : 0 < m) (hlong : 4503599627370496 ≤ m) (hlt : m < 9007199254740992)
    (hleast : -1074 ≤ e) (hgreatest : e ≤ 971) : Canonical (.finite s m e hm)

/-! ## The fields -/

/-- The first bit of a normal mantissa counts `2 ^ 52`. -/
theorem toNat_one_append (m : BitVec 52) : (1#1 ++ m).toNat = 4503599627370496 + m.toNat := by
  rw [BitVec.toNat_append, ← Nat.shiftLeft_add_eq_or_of_lt m.isLt]
  simp [Nat.shiftLeft_eq]

theorem toNat_ne_zero {w : Nat} {b : BitVec w} (h : b ≠ 0#w) : b.toNat ≠ 0 := fun hzero =>
  h (BitVec.eq_of_toNat_eq hzero)

theorem toNat_ne_last {b : BitVec 11} (h : b ≠ -1#11) : b.toNat ≠ 2047 := fun hlast =>
  h (BitVec.eq_of_toNat_eq hlast)

theorem canonical_unpack (b : BitVec 64) : Canonical (unpack binary64 b) := by
  have hmantissa : (@unpackMantissa binary64 b).toNat < 4503599627370496 :=
    (@unpackMantissa binary64 b).isLt
  have hexponent : (@unpackExponent binary64 b).toNat < 2048 := (@unpackExponent binary64 b).isLt
  unfold Float.Model.UnpackedFloat.unpack
  dsimp only
  by_cases hlast : @unpackExponent binary64 b = -1#11
  · rw [if_pos hlast]
    by_cases hzero : @unpackMantissa binary64 b = 0#52
    · rw [if_pos hzero]
      exact .infinity _
    · rw [if_neg hzero]
      exact .notANumber
  · rw [if_neg hlast]
    by_cases hfirst : @unpackExponent binary64 b = 0#11
    · rw [if_pos hfirst]
      by_cases hzero : @unpackMantissa binary64 b = 0#52
      · rw [dif_pos hzero]
        exact .zero _
      · rw [dif_neg hzero]
        refine .subnormal _ _ hmantissa ?_
        rw [hfirst]
        rfl
    · rw [if_neg hfirst]
      have := toNat_ne_last hlast
      have := toNat_ne_zero hfirst
      have hbias : (binary64.exponentBias : Int) = 1023 := rfl
      refine .normal _ _ ?_ ?_ ?_ ?_
      · rw [toNat_one_append]
        omega
      · rw [toNat_one_append]
        omega
      · omega
      · omega

/-! ## Packing and unpacking -/

theorem log2_lt {m : Nat} (hm : 0 < m) (hlt : m < 9007199254740992) : m.log2 < 53 :=
  (Nat.log2_lt (Nat.ne_of_gt hm)).2 hlt

theorem log2_eq {m : Nat} (hm : 0 < m) (hlong : 4503599627370496 ≤ m) (hlt : m < 9007199254740992) : m.log2 = 52 :=
  Nat.le_antisymm (Nat.le_of_lt_succ (log2_lt hm hlt)) ((Nat.le_log2 (Nat.ne_of_gt hm)).2 hlong)

/-- A number that is too great is packed as an infinity, and one whose mantissa is too short as a subnormal one. -/
theorem pack_finite (s : Sign) {m : Nat} {e : Int} (hm : 0 < m) : pack binary64 (.finite s m e hm) =
    if 2048 ≤ (e + 1023 + 52).toNat + 1 then packedInfinity binary64 s
    else if m.log2 + 1 = 53 then packComponents binary64 s (BitVec.ofNat 11 (e + 1023 + 52).toNat) (BitVec.ofNat 52 m)
    else packComponents binary64 s (0#11) (BitVec.ofNat 52 m) := rfl

theorem pack_subnormal (s : Sign) {m : Nat} (hm : 0 < m) (hshort : m < 4503599627370496) :
    pack binary64 (.finite s m (-1074) hm) = packComponents binary64 s (0#11) (BitVec.ofNat 52 m) := by
  have hlog : m.log2 < 52 := (Nat.log2_lt (Nat.ne_of_gt hm)).2 hshort
  rw [pack_finite, if_neg (by decide), if_neg (by omega)]

theorem pack_normal (s : Sign) {m : Nat} {e : Int} (hm : 0 < m) (hlong : 4503599627370496 ≤ m)
    (hlt : m < 9007199254740992) (hgreatest : e ≤ 971) :
    pack binary64 (.finite s m e hm) =
      packComponents binary64 s (BitVec.ofNat 11 (e + 1023 + 52).toNat) (BitVec.ofNat 52 m) := by
  have hlog : m.log2 = 52 := log2_eq hm hlong hlt
  rw [pack_finite, if_neg (by omega), if_pos (by omega)]

/-- The sign stands in front of the 63 bits of the other fields. -/
theorem ofBitVec_unpackSign_packComponents (s : Sign) (e : BitVec 11) (m : BitVec 52) :
    Sign.ofBitVec (unpackSign (packComponents binary64 s e m)) = s := by
  have hfirst : unpackSign (packComponents binary64 s e m) = s.toBitVec := by
    show (s.toBitVec ++ e ++ m).extractLsb' 63 1 = s.toBitVec
    rw [BitVec.extractLsb'_append_eq_of_le (by decide), BitVec.extractLsb'_append_eq_of_le (by decide)]
    exact BitVec.extractLsb'_eq_self
  rw [hfirst]
  cases s <;> rfl

/-- Nothing canonical is lost in a double. -/
theorem unpack_pack {f : Float.Model.UnpackedFloat} (h : Canonical f) : unpack binary64 (pack binary64 f) = f := by
  cases h with
  | notANumber => rfl
  | infinity s => cases s <;> rfl
  | zero s => cases s <;> rfl
  | @subnormal s m e hm hshort hleast =>
    subst hleast
    have hmantissa : (BitVec.ofNat 52 m).toNat = m := Nat.mod_eq_of_lt hshort
    have hnonzero : BitVec.ofNat 52 m ≠ 0#52 := by
      intro hzero
      have := congrArg BitVec.toNat hzero
      rw [hmantissa] at this
      exact Nat.ne_of_gt hm this
    rw [pack_subnormal s hm hshort]
    unfold Float.Model.UnpackedFloat.unpack
    dsimp only
    rw [unpackExponent_packComponents, if_neg (by decide), if_pos rfl,
      dif_neg (by rw [unpackMantissa_packComponents]; exact hnonzero), Float.Model.UnpackedFloat.finite.injEq]
    refine ⟨ofBitVec_unpackSign_packComponents s _ _, ?_, rfl⟩
    rw [unpackMantissa_packComponents, hmantissa]
  | @normal s m e hm hlong hlt hleast hgreatest =>
    let b := (e + 1023 + 52).toNat
    have hexponent : (BitVec.ofNat 11 b).toNat = b := Nat.mod_eq_of_lt (by omega)
    have hlast : BitVec.ofNat 11 b ≠ -1#11 := by
      intro h
      have : b = 2047 := hexponent.symm.trans (congrArg BitVec.toNat h)
      omega
    have hfirst : BitVec.ofNat 11 b ≠ 0#11 := by
      intro h
      have : b = 0 := hexponent.symm.trans (congrArg BitVec.toNat h)
      omega
    have hmantissa : (1#1 ++ BitVec.ofNat 52 m).toNat = m := by
      have : (BitVec.ofNat 52 m).toNat = m % 4503599627370496 := rfl
      rw [toNat_one_append, this]
      omega
    rw [pack_normal s hm hlong hlt hgreatest]
    unfold Float.Model.UnpackedFloat.unpack
    dsimp only
    rw [unpackExponent_packComponents, if_neg hlast, if_neg hfirst, Float.Model.UnpackedFloat.finite.injEq]
    refine ⟨ofBitVec_unpackSign_packComponents s _ _, ?_, ?_⟩
    · rw [unpackMantissa_packComponents, hmantissa]
    · show ((BitVec.ofNat 11 b).toNat : Int) - (1023 + 52) = e
      rw [hexponent]
      omega

/-! ## Values -/

theorem unpack_ofModel_pack {f : Float.Model.UnpackedFloat} (h : Canonical f) :
    (Float.ofModel (.pack f)).toModel.unpack = f := unpack_pack h

theorem Canonical.neg {f : Float.Model.UnpackedFloat} (h : Canonical f) : Canonical f.neg := by
  cases h with
  | notANumber => exact .notANumber
  | infinity s => exact .infinity _
  | zero s => exact .zero _
  | subnormal s hm hshort hleast => exact .subnormal _ hm hshort hleast
  | normal s hm hlong hlt hleast hgreatest => exact .normal _ hm hlong hlt hleast hgreatest

theorem unpack_neg (x : Float) : (-x).toModel.unpack = x.toModel.unpack.neg := unpack_pack (canonical_unpack _).neg

/-- The other sign makes the opposite number. -/
theorem value?_not (negative : Bool) (m : Nat) (e : Int) :
    (Reading.finite (!negative) m e).value? = (Reading.finite negative m e).value?.map (-·) := by
  cases negative
  · rfl
  · exact congrArg some (Rat.neg_neg _).symm

theorem value?_neg (x : Float) : value? (-x) = (value? x).map (-·) := by
  unfold value? read
  rw [unpack_neg]
  cases x.toModel.unpack with
  | notANumber => rfl
  | infinity s => rfl
  | zero s =>
    cases s with
    | positive => exact value?_not false 0 0
    | negative => exact value?_not true 0 0
  | finite s m e hm =>
    cases s with
    | positive => exact value?_not false m e
    | negative => exact value?_not true m e

theorem isFinite_eq_isSome (x : Float) : x.isFinite = (value? x).isSome := by
  show x.toModel.unpack.isFinite = _
  unfold value? read
  cases x.toModel.unpack <;> rfl

/-- A number with a mantissa and a sign. -/
theorem eq_or_eq_neg_of_reading {negative : Bool} {m : Nat} {e : Int} {v : Rat}
    (h : (Reading.finite negative m e).value? = some v) : v = scaled m e ∨ v = -scaled m e := by
  cases h
  cases negative
  · exact .inl rfl
  · exact .inr rfl

/-- A finite double has a mantissa of at most 53 bits. -/
theorem exists_scaled_of_value? {x : Float} {v : Rat} (h : value? x = some v) :
    ∃ (m : Nat) (e : Int), m < 9007199254740992 ∧ (v = scaled m e ∨ v = -scaled m e) := by
  have hcanonical : Canonical x.toModel.unpack := canonical_unpack _
  unfold value? read at h
  cases hx : x.toModel.unpack with
  | notANumber =>
    rw [hx] at h
    cases h
  | infinity s =>
    rw [hx] at h
    cases h
  | zero s =>
    rw [hx] at h
    exact ⟨0, 0, by decide, eq_or_eq_neg_of_reading h⟩
  | finite s m e hm =>
    rw [hx] at h hcanonical
    refine ⟨m, e, ?_, eq_or_eq_neg_of_reading h⟩
    cases hcanonical <;> omega

end DocState.Double
