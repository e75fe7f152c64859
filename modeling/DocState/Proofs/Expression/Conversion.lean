import DocState.Proofs.Decimals.Reading

/-!
# From the value of an expression to a number

The value of an expression is a double.  A double with bits behind the point is far smaller than the greatest number, so
that neither cutting nor rounding leads out of the range, and no double lies between the ends of the range and the
integers next to them.

* `Division.Takes division v i`: the integer that a mode makes of a rational number, by its distance.
  `Division.integer?_eq_some_iff`: the mode finds it.
* `Double.exists_intCast_or_abs_lt`: doubles that are no integers.  `Division.Takes.inRange_iff`: the integer is in the
  range of numbers exactly when the double is.
* `Expression.integer_of_value`: which values become numbers in which mode, and which numbers.
-/

namespace DocState

variable {v : Rat} {i : Int} {division : Division} {x : Float}

/-! ## Modes -/

namespace Double

theorem floor_eq_iff : v.floor = i ↔ (i : Rat) ≤ v ∧ v < i + 1 := by
  rw [← Rat.le_floor_iff, ← Int.cast_one, ← Int.cast_add, ← Rat.floor_lt_iff]
  omega

theorem towardZero_of_nonneg (hv : 0 ≤ v) : towardZero v = v.floor := if_neg (not_lt.2 hv)

theorem nearest_of_nonneg (hv : 0 ≤ v) : nearest v = (v + 1 / 2).floor := if_neg (not_lt.2 hv)

theorem towardZero_neg (hv : 0 ≤ v) : towardZero (-v) = -towardZero v := by
  rcases hv.eq_or_lt with rfl | hpos
  · decide
  · rw [towardZero_of_nonneg hv, towardZero, if_pos (neg_lt_zero.2 hpos), Rat.ceil_eq_neg_floor_neg, neg_neg]

theorem nearest_neg (hv : 0 ≤ v) : nearest (-v) = -nearest v := by
  rcases hv.eq_or_lt with rfl | hpos
  · have hzero : nearest 0 = 0 := nearest_intCast 0
    rw [neg_zero, hzero]
    rfl
  · have hopposite : -(-v - 1 / 2) = v + 1 / 2 := by ring
    rw [nearest_of_nonneg hv, nearest, if_pos (neg_lt_zero.2 hpos), Rat.ceil_eq_neg_floor_neg, hopposite]

end Double

namespace Division

/-- The integer that a mode makes of a rational number: the nearest one, and of two nearest ones the one farther from
zero; or the one between zero and the number, less than one away from it; or the number itself. -/
def Takes : Division → Rat → Int → Prop
  | .rounded, v, i => |v - i| ≤ 1 / 2 ∧ (|v - i| = 1 / 2 → |v| < |(i : Rat)|)
  | .truncated, v, i => (0 ≤ (i : Rat) ∧ i ≤ v ∨ v ≤ i ∧ (i : Rat) ≤ 0) ∧ |v - i| < 1
  | .real, v, i => v = i

theorem takes_neg : division.Takes (-v) (-i) ↔ division.Takes v i := by
  have hdistance : |-v - -(i : Rat)| = |v - i| := by
    rw [← abs_neg]
    congr 1
    ring
  cases division with
  | rounded => simp only [Takes, Int.cast_neg, hdistance, abs_neg]
  | truncated =>
    simp only [Takes, Int.cast_neg, hdistance, neg_nonneg, neg_le_neg_iff, Left.neg_nonpos_iff]
    tauto
  | real => simp only [Takes, Int.cast_neg, neg_inj]

theorem integer?_neg (hv : 0 ≤ v) : division.integer? (-v) = (division.integer? v).map (-·) := by
  cases division with
  | rounded => simp only [integer?, Double.nearest_neg hv, Option.map_some]
  | truncated => simp only [integer?, Double.towardZero_neg hv, Option.map_some]
  | real =>
    simp only [integer?, Rat.neg_den, Rat.neg_num]
    split <;> rfl

theorem cast_nonneg_of_neg_one_lt (h : (-1 : Rat) < i) : 0 ≤ (i : Rat) := by
  have hlt : -1 < i := by exact_mod_cast h
  exact_mod_cast Int.add_one_le_of_lt hlt

/-- What is rounded and is not below zero: from halfway up. -/
theorem takes_rounded_iff (hv : 0 ≤ v) : Takes .rounded v i ↔ (i : Rat) ≤ v + 1 / 2 ∧ v + 1 / 2 < i + 1 := by
  constructor
  · rintro ⟨hnear, htie⟩
    obtain ⟨hlow, hhigh⟩ := abs_le.1 hnear
    refine ⟨by linarith, lt_of_le_of_ne (by linarith) fun hhalf => ?_⟩
    -- halfway between two integers, the lower one is not farther from zero
    have hdistance : v - i = 1 / 2 := by linarith
    have hfar := htie (by rw [hdistance, abs_of_pos (by norm_num)])
    rw [abs_of_nonneg hv, abs_of_nonneg (cast_nonneg_of_neg_one_lt (by linarith))] at hfar
    linarith
  · rintro ⟨hlow, hhigh⟩
    refine ⟨abs_le.2 ⟨by linarith, by linarith⟩, fun htie => ?_⟩
    rcases eq_or_eq_neg_of_abs_eq htie with hdown | hup
    · linarith
    · rw [abs_of_nonneg hv, abs_of_nonneg (by linarith)]
      linarith

/-- What is cut and is not below zero. -/
theorem takes_truncated_iff (hv : 0 ≤ v) : Takes .truncated v i ↔ (i : Rat) ≤ v ∧ v < i + 1 := by
  constructor
  · rintro ⟨hbetween, hnear⟩
    have hclose := abs_lt.1 hnear
    rcases hbetween with ⟨-, hle⟩ | ⟨hle, hzero⟩
    · exact ⟨hle, by linarith⟩
    · exact ⟨by linarith, by linarith⟩
  · rintro ⟨hle, hlt⟩
    exact ⟨.inl ⟨cast_nonneg_of_neg_one_lt (by linarith), hle⟩, abs_lt.2 ⟨by linarith, by linarith⟩⟩

/-- What a mode finds. -/
theorem integer?_eq_some_iff_of_nonneg (hv : 0 ≤ v) : division.integer? v = some i ↔ division.Takes v i := by
  cases division with
  | rounded => rw [takes_rounded_iff hv, ← Double.floor_eq_iff, ← Double.nearest_of_nonneg hv, integer?, Option.some_inj]
  | truncated =>
    rw [takes_truncated_iff hv, ← Double.floor_eq_iff, ← Double.towardZero_of_nonneg hv, integer?, Option.some_inj]
  | real =>
    rw [integer?, Takes]
    constructor
    · intro h
      split at h
      · rename_i hden
        rw [← Option.some.inj h, Rat.coe_int_num_of_den_eq_one hden]
      · cases h
    · rintro rfl
      rfl

theorem integer?_eq_some_iff : division.integer? v = some i ↔ division.Takes v i := by
  rcases le_total 0 v with hv | hv
  · exact integer?_eq_some_iff_of_nonneg hv
  · have hopposite : division.integer? (-v) = some (-i) ↔ division.Takes (-v) (-i) :=
      integer?_eq_some_iff_of_nonneg (neg_nonneg.2 hv)
    rw [takes_neg] at hopposite
    rw [← hopposite, ← neg_neg v, integer?_neg (neg_nonneg.2 hv), neg_neg, Option.map_eq_some_iff]
    constructor
    · rintro ⟨j, hj, rfl⟩
      rwa [Int.neg_neg]
    · intro h
      exact ⟨-i, h, Int.neg_neg i⟩

theorem Takes.abs_sub_lt (h : division.Takes v i) : |v - i| < 1 := by
  cases division with
  | rounded => exact h.1.trans_lt (by norm_num)
  | truncated => exact h.2
  | real => simp [show v = i from h]

end Division

namespace Double

/-- A double is an integer, or it has bits behind the point and less than 53 in front of it. -/
theorem exists_intCast_or_abs_lt (h : value? x = some v) : (∃ i : Int, v = i) ∨ |v| < 2 ^ 52 := by
  obtain ⟨m, e, hm, hv⟩ := exists_scaled_of_value? h
  rcases le_or_gt 0 e with he | he
  · obtain ⟨k, rfl⟩ := Int.eq_ofNat_of_zero_le he
    rw [scaled_natCast] at hv
    rcases hv with rfl | rfl
    · exact .inl ⟨(m * 2 ^ k : Nat), by push_cast; rfl⟩
    · exact .inl ⟨-(m * 2 ^ k : Nat), by push_cast; rfl⟩
  · have habs : |v| = scaled m e := by
      rcases hv with rfl | rfl
      · exact abs_of_nonneg (scaled_nonneg m e)
      · rw [abs_neg, abs_of_nonneg (scaled_nonneg m e)]
    have hhalf : (2 : Rat) ^ e ≤ 2 ^ (-1 : Int) := zpow_le_zpow_right₀ (by norm_num) (by omega)
    have hbits : (m : Rat) < 2 ^ 53 := by exact_mod_cast hm
    refine .inr ?_
    rw [habs, scaled]
    calc (m : Rat) * 2 ^ e ≤ m * 2 ^ (-1 : Int) := by gcongr
      _ < 2 ^ 53 * 2 ^ (-1 : Int) := by gcongr
      _ = 2 ^ 52 := by norm_num

end Double

/-! ## The range of numbers -/

/-- From the least number on, and less than one above the greatest. -/
def Number.InRange (v : Rat) : Prop := -2 ^ 63 ≤ v ∧ v < 2 ^ 63

namespace Division

theorem inRange_intCast : Number.InRange (i : Rat) ↔ Number.lowest ≤ i ∧ i ≤ Number.highest := by
  have hlow : (-2 ^ 63 : Rat) ≤ i ↔ Number.lowest ≤ i := by
    rw [← Int.cast_le (R := Rat)]
    norm_num [Number.lowest]
  have hhigh : (i : Rat) < 2 ^ 63 ↔ i ≤ Number.highest := by
    rw [← Int.lt_add_one_iff, ← Int.cast_lt (R := Rat)]
    norm_num [Number.highest]
  rw [Number.InRange, hlow, hhigh]

/-- What a mode makes of a double is in the range if and only if the double is. -/
theorem Takes.inRange_iff (h : division.Takes v i) (hx : Double.value? x = some v) :
    Number.InRange (i : Rat) ↔ Number.InRange v := by
  rcases Double.exists_intCast_or_abs_lt hx with ⟨j, rfl⟩ | hsmall
  · have hj := integer?_eq_some_iff.2 h
    rw [division.integer?_intCast] at hj
    rw [Option.some.inj hj]
  · -- both are far from the ends
    have hnear := abs_lt.1 h.abs_sub_lt
    have hbounds := abs_lt.1 hsmall
    norm_num at hbounds
    unfold Number.InRange
    norm_num
    constructor <;> intro <;> constructor <;> linarith

/-- Cutting and rounding find an integer for every number. -/
theorem exists_takes (h : division ≠ .real) (v : Rat) : ∃ i, division.Takes v i := by
  cases division with
  | rounded => exact ⟨_, integer?_eq_some_iff.1 rfl⟩
  | truncated => exact ⟨_, integer?_eq_some_iff.1 rfl⟩
  | real => exact absurd rfl h

end Division

/-! ## Numbers -/

namespace Expression

variable {text : Text}

theorem integer_eq_ok_iff (hx : value text = .ok x) {n : Number} :
    integer division text = .ok n ↔ ∃ v, Double.value? x = some v ∧ Number.InRange v ∧ division.Takes v n.toInt := by
  have hfound : integer division text = .ok n ↔
      ((Double.value? x).bind division.integer?).bind Number.ofInt? = some n := by
    rw [integer_eq_elim hx]
    cases ((Double.value? x).bind division.integer?).bind Number.ofInt? <;> simp
  rw [hfound, Option.bind_eq_some_iff]
  constructor
  · rintro ⟨i, hi, hn⟩
    obtain ⟨v, hv, hinteger⟩ := Option.bind_eq_some_iff.1 hi
    obtain rfl := Number.ofInt?_eq_some_iff.1 hn
    have htakes := Division.integer?_eq_some_iff.1 hinteger
    have hrange := Division.inRange_intCast.2 ⟨n.lowest_le_toInt, n.toInt_le_highest⟩
    exact ⟨v, hv, (htakes.inRange_iff hv).1 hrange, htakes⟩
  · rintro ⟨v, hv, -, htakes⟩
    exact ⟨n.toInt, Option.bind_eq_some_iff.2 ⟨v, hv, Division.integer?_eq_some_iff.2 htakes⟩, Number.ofInt?_toInt n⟩

/-- An integer that a mode makes of a double in the range is a number. -/
theorem exists_integer_of_takes (hx : value text = .ok x) (hv : Double.value? x = some v) (hrange : Number.InRange v)
    (h : division.Takes v i) : ∃ n : Number, n.toInt = i ∧ integer division text = .ok n := by
  obtain ⟨hlow, hhigh⟩ := Division.inRange_intCast.1 ((h.inRange_iff hv).2 hrange)
  obtain ⟨n, rfl, -⟩ := Number.exists_ofInt? hlow hhigh
  exact ⟨n, rfl, (integer_eq_ok_iff hx).2 ⟨v, hv, hrange, h⟩⟩

theorem eq_invalidNumber_of_integer (hx : value text = .ok x) {e : Error} (h : integer division text = .error e) :
    e = .invalidNumber text := by
  rw [integer_eq_elim hx] at h
  cases hn : ((Double.value? x).bind division.integer?).bind Number.ofInt? with
  | none =>
    rw [hn] at h
    exact (Except.error.inj h).symm
  | some n =>
    rw [hn] at h
    cases h

/-- The value of an expression becomes a number in each of the two modes that cut or round if and only if it is finite
and in the range, and it becomes the number that is cut or rounded exactly.  In the third mode it has to be an integer
besides, and then all modes leave it as it is.  Whatever becomes no number is refused with the text of the
expression. -/
theorem integer_of_value (hx : value text = .ok x) :
    (∀ division n, integer division text = .ok n ↔
      ∃ v, Double.value? x = some v ∧ Number.InRange v ∧ division.Takes v n.toInt) ∧
    (∀ division, division ≠ .real →
      ((∃ n, integer division text = .ok n) ↔ ∃ v, Double.value? x = some v ∧ Number.InRange v)) ∧
    ((∃ n, integer .real text = .ok n) ↔ ∃ i : Int, Double.value? x = some (i : Rat) ∧ Number.InRange (i : Rat)) ∧
    (∀ n, integer .real text = .ok n →
      Double.value? x = some (n.toInt : Rat) ∧ ∀ division, integer division text = .ok n) ∧
    ∀ division e, integer division text = .error e → e = .invalidNumber text := by
  refine ⟨fun division n => integer_eq_ok_iff hx, fun division hmode => ?_, ?_, fun n hn => ?_,
    fun division e => eq_invalidNumber_of_integer hx⟩
  · constructor
    · rintro ⟨n, hn⟩
      obtain ⟨v, hv, hrange, -⟩ := (integer_eq_ok_iff hx).1 hn
      exact ⟨v, hv, hrange⟩
    · rintro ⟨v, hv, hrange⟩
      obtain ⟨i, hi⟩ := Division.exists_takes hmode v
      obtain ⟨n, -, hn⟩ := exists_integer_of_takes hx hv hrange hi
      exact ⟨n, hn⟩
  · constructor
    · rintro ⟨n, hn⟩
      obtain ⟨v, hv, hrange, rfl⟩ := (integer_eq_ok_iff hx).1 hn
      exact ⟨n.toInt, hv, hrange⟩
    · rintro ⟨i, hv, hrange⟩
      have htakes : Division.Takes .real (i : Rat) i := rfl
      obtain ⟨n, -, hn⟩ := exists_integer_of_takes hx hv hrange htakes
      exact ⟨n, hn⟩
  · obtain ⟨v, hv, hrange, rfl⟩ := (integer_eq_ok_iff hx).1 hn
    refine ⟨hv, fun division => (integer_eq_ok_iff hx).2 ⟨_, hv, hrange, ?_⟩⟩
    exact Division.integer?_eq_some_iff.1 (division.integer?_intCast n.toInt)

/-- The least double that lies halfway between two integers. -/
theorem integer_of_value_halfway :
    let text : Text := "-4503599627370495.5".toList
    let x : Float := -Double.ofDecimal 45035996273704955 1
    value text = .ok x ∧ integer .rounded text = .ok (-4503599627370496) ∧
      integer .truncated text = .ok (-4503599627370495) ∧ integer .real text = .error (.invalidNumber text) := by
  intro text x
  have hx : value text = .ok x := by decide +kernel
  have hv : Double.value? x = some (-9007199254740991 / 2) := by decide +kernel
  have hrange : Number.InRange (-9007199254740991 / 2) := by norm_num [Number.InRange]
  obtain ⟨htakes, -, -, hreal, hrefused⟩ := integer_of_value hx
  have hrounded : Division.Takes .rounded (-9007199254740991 / 2) (-4503599627370496 : Number).toInt :=
    Division.integer?_eq_some_iff.1 (by decide +kernel)
  have htruncated : Division.Takes .truncated (-9007199254740991 / 2) (-4503599627370495 : Number).toInt :=
    Division.integer?_eq_some_iff.1 (by decide +kernel)
  refine ⟨hx, (htakes _ _).2 ⟨_, hv, hrange, hrounded⟩, (htakes _ _).2 ⟨_, hv, hrange, htruncated⟩, ?_⟩
  cases h : integer .real text with
  | error e => rw [hrefused _ e h]
  | ok n =>
    have hwhole := Option.some.inj (hv.symm.trans (hreal n h).1)
    have hdouble : (-9007199254740991 : Rat) = n.toInt * 2 := by linarith
    have hodd : -9007199254740991 = n.toInt * 2 := by exact_mod_cast hdouble
    omega

/-- The greatest double in the range, and the greatest number, which is read as the double next to it. -/
example : integer .truncated "9223372036854774784".toList = .ok 9223372036854774784 ∧
    integer .truncated "9223372036854775807".toList = .error (.invalidNumber "9223372036854775807".toList) := by
  decide +kernel

end Expression
end DocState
