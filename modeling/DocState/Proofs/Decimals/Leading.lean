import DocState.Proofs.Decimals.Reading

/-!
# The number at the start of a text

Blanks come first, then at most one sign and a run of digits, which is read as far as it goes.  What follows the digits
does not matter.

* `Number.Leads t i`: the text begins in this way, and the integer is the one that its sign and digits denote.
* `Number.leading_of_leads`, `Number.leads_or_refused`: the integer is read if it is a number, and without such a start
  nothing is.  `Number.leading_eq_ok_iff`, `Number.leading_eq_error_iff`: both directions.
* `Number.leading_characterized`: the texts that are read, with their numbers, and the error of all others.
-/

namespace DocState
namespace Number

open Decimal

/-- The text is made of blanks, a numeral of the integer, and a rest that does not begin with one more digit. -/
def Leads (t : Text) (i : Int) : Prop :=
  ∃ blanks numeral tail, t = blanks ++ (numeral ++ tail) ∧ (∀ c ∈ blanks, isBlank c = true) ∧ Denotes numeral i ∧
    ∀ c ∈ tail.head?, c.isDigit = false

variable {t numeral blanks signs digits tail : Text} {i : Int}

/-! ## Signs and digits -/

theorem exists_signs_of_denotes (h : Denotes numeral i) :
    ∃ signs digits, numeral = signs ++ digits ∧ (∀ c ∈ signs, isSign c = true) ∧ signs.length ≤ 1 ∧
      isRun digits = true := by
  cases h with
  | plain hdigits => exact ⟨[], numeral, rfl, List.forall_mem_nil _, Nat.zero_le 1, hdigits⟩
  | plus hdigits => exact ⟨['+'], _, rfl, List.forall_mem_singleton.2 rfl, Nat.le_refl 1, hdigits⟩
  | minus hdigits => exact ⟨['-'], _, rfl, List.forall_mem_singleton.2 rfl, Nat.le_refl 1, hdigits⟩

theorem eq_nil_or_sign (hsigns : ∀ c ∈ signs, isSign c = true) (hone : signs.length ≤ 1) :
    signs = [] ∨ signs = ['+'] ∨ signs = ['-'] := by
  rcases signs with _ | ⟨c, _ | ⟨d, rest⟩⟩
  · exact .inl rfl
  · have hc := hsigns c List.mem_cons_self
    rw [isSign, Bool.or_eq_true, beq_iff_eq, beq_iff_eq] at hc
    rcases hc with rfl | rfl
    · exact .inr (.inl rfl)
    · exact .inr (.inr rfl)
  · exact absurd hone (by simp)

theorem exists_denotes (hsigns : ∀ c ∈ signs, isSign c = true) (hone : signs.length ≤ 1)
    (hdigits : isRun digits = true) : ∃ i, Denotes (signs ++ digits) i := by
  rcases eq_nil_or_sign hsigns hone with rfl | rfl | rfl
  · exact ⟨_, .plain hdigits⟩
  · exact ⟨_, .plus hdigits⟩
  · exact ⟨_, .minus hdigits⟩

/-- A sign alone is not read. -/
theorem ofText?_of_not_isRun (hsigns : ∀ c ∈ signs, isSign c = true) (hone : signs.length ≤ 1)
    (hdigits : ∀ c ∈ digits, c.isDigit = true) (hrun : ¬ isRun digits = true) : ofText? (signs ++ digits) = none := by
  have hempty : digits = [] := by
    by_contra hne
    refine hrun ?_
    rw [isRun, Bool.and_eq_true, List.all_eq_true, Bool.not_eq_true', List.isEmpty_eq_false_iff]
    exact ⟨hne, hdigits⟩
  subst hempty
  rcases eq_nil_or_sign hsigns hone with rfl | rfl | rfl <;> rfl

/-! ## Reading -/

/-- The signs and the digits that the reader finds are those that are there. -/
theorem leading_append (hblanks : ∀ c ∈ blanks, isBlank c = true) (hsigns : ∀ c ∈ signs, isSign c = true)
    (hone : signs.length ≤ 1) (hdigits : isRun digits = true) (htail : ∀ c ∈ tail.head?, c.isDigit = false) :
    leading (blanks ++ (signs ++ digits ++ tail)) =
      (ofText? (signs ++ digits)).elim (.error (.invalidNumber (blanks ++ (signs ++ digits ++ tail)))) .ok := by
  obtain ⟨c, rest, hfirst, hc⟩ := exists_cons_of_isRun hdigits
  have htrim : Text.trimLeft (blanks ++ (signs ++ digits ++ tail)) = signs ++ (digits ++ tail) := by
    rw [List.append_assoc]
    refine Text.trimLeft_append hblanks fun c' hc' => ?_
    cases signs with
    | nil =>
      rw [List.nil_append, hfirst] at hc'
      obtain rfl := Option.some.inj hc'
      exact isBlank_eq_false_of_isDigit hc
    | cons sign signs =>
      obtain rfl := Option.some.inj hc'
      exact isBlank_eq_false_of_isSign (hsigns sign List.mem_cons_self)
  have hnosign : (digits ++ tail).takeWhile isSign = [] ∧ (digits ++ tail).dropWhile isSign = digits ++ tail := by
    rw [hfirst, List.cons_append, List.takeWhile_cons, List.dropWhile_cons, isSign_eq_false_of_isDigit hc]
    exact ⟨rfl, rfl⟩
  have htake : (signs ++ (digits ++ tail)).takeWhile isSign = signs := by
    rw [List.takeWhile_append_of_pos hsigns, hnosign.1, List.append_nil]
  have hdrop : ((signs ++ (digits ++ tail)).dropWhile isSign).takeWhile Char.isDigit = digits := by
    have hend : tail.takeWhile Char.isDigit = [] := by
      cases tail with
      | nil => rfl
      | cons d tail => rw [List.takeWhile_cons, htail d rfl, if_neg Bool.false_ne_true]
    rw [List.dropWhile_append_of_pos hsigns, hnosign.2,
      List.takeWhile_append_of_pos fun c hc => isDigit_of_isRun hdigits hc, hend, List.append_nil]
  unfold leading
  simp only [htrim, htake, hdrop, if_pos hone]
  cases ofText? (signs ++ digits) <;> rfl

/-- The integer at the start of a text is read if it is a number. -/
theorem leading_of_leads (h : Leads t i) : leading t = (ofInt? i).elim (.error (.invalidNumber t)) .ok := by
  obtain ⟨blanks, numeral, tail, rfl, hblanks, hnumeral, htail⟩ := h
  obtain ⟨signs, digits, rfl, hsigns, hone, hdigits⟩ := exists_signs_of_denotes hnumeral
  rw [leading_append hblanks hsigns hone hdigits htail, ofText?_eq_ofInt? hnumeral]

/-- A text begins with an integer or is refused. -/
theorem leads_or_refused (t : Text) : (∃ i, Leads t i) ∨ leading t = .error (.invalidNumber t) := by
  let body := t.trimLeft
  let signs := body.takeWhile isSign
  let digits := (body.dropWhile isSign).takeWhile Char.isDigit
  have hsigns : ∀ c ∈ signs, isSign c = true := fun c hc => List.mem_takeWhile_imp hc
  have hdigits : ∀ c ∈ digits, c.isDigit = true := fun c hc => List.mem_takeWhile_imp hc
  by_cases hone : signs.length ≤ 1
  · by_cases hrun : isRun digits = true
    · obtain ⟨i, hi⟩ := exists_denotes hsigns hone hrun
      refine .inl ⟨i, t.takeWhile isBlank, signs ++ digits, (body.dropWhile isSign).dropWhile Char.isDigit, ?_,
        fun c hc => List.mem_takeWhile_imp hc, hi, ?_⟩
      · rw [List.append_assoc, List.takeWhile_append_dropWhile, List.takeWhile_append_dropWhile]
        exact List.takeWhile_append_dropWhile.symm
      · intro c hc
        have hstop := List.head?_dropWhile_not Char.isDigit (body.dropWhile isSign)
        rw [Option.mem_def.1 hc] at hstop
        exact hstop
    · refine .inr ?_
      unfold leading
      simp only [body, signs, digits] at hone hsigns hdigits hrun
      simp only [if_pos hone, ofText?_of_not_isRun hsigns hone hdigits hrun]
  · refine .inr ?_
    unfold leading
    simp only [body, signs] at hone
    simp only [if_neg hone]

theorem leading_eq_ok_iff {n : Number} : leading t = .ok n ↔ Leads t n.toInt := by
  constructor
  · intro h
    rcases leads_or_refused t with ⟨i, hi⟩ | hrefused
    · rw [leading_of_leads hi] at h
      cases hn : ofInt? i with
      | none =>
        rw [hn] at h
        cases h
      | some m =>
        rw [hn] at h
        obtain rfl := Except.ok.inj h
        rwa [ofInt?_eq_some_iff.1 hn]
    · rw [hrefused] at h
      cases h
  · intro h
    rw [leading_of_leads h, ofInt?_toInt, Option.elim_some]

/-- A text is refused if it does not begin with an integer, or if its integer is out of range. -/
theorem leading_eq_error_iff {e : Error} :
    leading t = .error e ↔ e = .invalidNumber t ∧ ∀ i, Leads t i → i < lowest ∨ highest < i := by
  constructor
  · intro h
    constructor
    · rcases leads_or_refused t with ⟨i, hi⟩ | hrefused
      · rw [leading_of_leads hi] at h
        cases hn : ofInt? i with
        | none =>
          rw [hn] at h
          exact (Except.error.inj h).symm
        | some m =>
          rw [hn] at h
          cases h
      · exact Except.error.inj (h.symm.trans hrefused)
    · intro i hi
      by_contra hrange
      obtain ⟨n, rfl, -⟩ := exists_ofInt? (i := i) (by omega) (by omega)
      rw [leading_eq_ok_iff.2 hi] at h
      cases h
  · rintro ⟨rfl, houtside⟩
    rcases leads_or_refused t with ⟨i, hi⟩ | hrefused
    · rw [leading_of_leads hi, ofInt?_eq_none_iff.2 (houtside i hi), Option.elim_none]
    · exact hrefused

/-- A numeral in front of anything but a digit. -/
theorem leading_append_of_denotes {n : Number} (h : Denotes numeral n.toInt) (htail : ∀ c ∈ tail.head?, c.isDigit = false) :
    leading (numeral ++ tail) = .ok n :=
  leading_eq_ok_iff.2 ⟨[], numeral, tail, rfl, List.forall_mem_nil _, h, htail⟩

theorem leading_of_denotes {n : Number} (h : Denotes t n.toInt) : leading t = .ok n := by
  have hread : leading (t ++ []) = .ok n := leading_append_of_denotes h nofun
  rwa [List.append_nil] at hread

/-- The texts that are read are those that begin with a number, and it is that number that is read.  Every other text is
refused as a whole: one that does not begin with an integer, and one whose integer is out of range.  In particular the
decimal text of a number is read as the number, whatever follows it but a digit. -/
theorem leading_characterized (t : Text) :
    (∀ n : Number, leading t = .ok n ↔ Leads t n.toInt) ∧
    (∀ e, leading t = .error e ↔ e = .invalidNumber t ∧ ∀ i, Leads t i → i < -2 ^ 63 ∨ 2 ^ 63 ≤ i) ∧
    ∀ (n : Number) (tail : Text), (∀ c ∈ tail.head?, c.isDigit = false) → leading (n.text ++ tail) = .ok n := by
  refine ⟨fun n => leading_eq_ok_iff, fun e => ?_, fun n tail htail => ?_⟩
  · have hrange : ∀ i : Int, i < lowest ∨ highest < i ↔ i < -2 ^ 63 ∨ 2 ^ 63 ≤ i := by
      intro i
      unfold lowest highest
      omega
    simp only [← hrange]
    exact leading_eq_error_iff
  · exact leading_append_of_denotes (denotes_ofInt n.toInt) htail

/-- The least number behind a blank, with zeros in front of its digits and an exponent behind them. -/
example : leading "\t-009223372036854775808e5".toList = .ok Int64.minValue := by decide +kernel

/-- The integer behind the greatest number, and one digit behind two signs. -/
example : leading "9223372036854775808".toList = .error (.invalidNumber "9223372036854775808".toList) ∧
    leading "+-2".toList = .error (.invalidNumber "+-2".toList) := by
  decide +kernel

end Number
end DocState
