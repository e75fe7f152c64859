import Mathlib.Tactic.IntervalCases
import DocState.Numeral

/-!
# Roman numerals

A number is written in four parts: its thousands as so many `M`, and behind them its hundreds, tens and units, each as
one of nine forms in the three signs of its decade.

* `decade one five ten d`: the digit `d` in the signs for one, five and ten.  `written n`: the numeral of `n`.
* `romanWith_decade`: what the greedy writing makes of one decade.  `written_eq`: the four parts.
* `reading`: the number that signs denote.  `reading_written`: it is the number that has been written.
* `not_replicate_infix_written`, `count_written_le`: how often a sign is repeated.
* `roman_of_grants`, `roman_eq_error_iff`: a number has its numeral if there is room for it, and is refused otherwise.
* `roman_canonical`: all of it for the numerals that are not refused.
-/

namespace DocState.Numeral

/-! ## Decades -/

/-- A digit in the signs of its decade; there is no sign for zero. -/
def decade (one five ten : Char) : Nat → Text
  | 1 => [one]
  | 2 => [one, one]
  | 3 => [one, one, one]
  | 4 => [one, five]
  | 5 => [five]
  | 6 => [five, one]
  | 7 => [five, one, one]
  | 8 => [five, one, one, one]
  | 9 => [one, ten]
  | _ => []

/-- The signs and sign pairs of a decade. -/
def decadeSigns (one five ten : Char) (unit : Nat) : List (Text × Nat) :=
  [([one, ten], unit * 9), ([five], unit * 5), ([one, five], unit * 4), ([one], unit * 1)]

theorem romanSigns_eq : romanSigns =
    (['M'], 1000) ::
      (decadeSigns 'C' 'D' 'M' 100 ++ (decadeSigns 'X' 'L' 'C' 10 ++ (decadeSigns 'I' 'V' 'X' 1 ++ []))) := by
  decide

variable {one five ten c : Char} {unit n d : Nat} {s t : Text}

theorem mem_decade (h : c ∈ decade one five ten d) : c = one ∨ c = five ∨ c = ten := by
  unfold decade at h
  split at h <;> simp only [List.mem_cons, List.not_mem_nil, or_false] at h <;> tauto

theorem romanWith_cons (sign : Text) (worth : Nat) (signs : List (Text × Nat)) (n : Nat) :
    (romanWith ((sign, worth) :: signs) n).1 =
      (List.replicate (n / worth) sign).flatten ++ (romanWith signs (n % worth)).1 := rfl

/-- What a sign leaves of a number: it counts whole units, and what is less than a unit stays. -/
theorem mod_mul_div_mod (n : Nat) (hunit : 0 < unit) (k : Nat) :
    n % (unit * k) / unit = n / unit % k ∧ n % (unit * k) % unit = n % unit := by
  have hself : n % (unit * k) = n % unit + unit * (n / unit % k) := Nat.mod_mul
  constructor
  · rw [hself, Nat.add_mul_div_left _ _ hunit, Nat.div_eq_of_lt (Nat.mod_lt n hunit), Nat.zero_add]
  · rw [hself, Nat.add_mul_mod_self_left, Nat.mod_mod]

/-- The greedy writing of a number of less than ten units begins with its digit, and goes on with what is less than a
unit. -/
theorem romanWith_decade (hunit : 0 < unit) (hn : n / unit < 10) (signs : List (Text × Nat)) :
    (romanWith (decadeSigns one five ten unit ++ signs) n).1 =
      decade one five ten (n / unit) ++ (romanWith signs (n % unit)).1 := by
  obtain ⟨hdiv9, hmod9⟩ := mod_mul_div_mod n hunit 9
  obtain ⟨hdiv5, hmod5⟩ := mod_mul_div_mod (n % (unit * 9)) hunit 5
  obtain ⟨hdiv4, hmod4⟩ := mod_mul_div_mod (n % (unit * 9) % (unit * 5)) hunit 4
  simp only [decadeSigns, List.cons_append, List.nil_append, romanWith_cons, ← Nat.div_div_eq_div_mul, Nat.mul_one,
    hdiv4, hmod4, hdiv5, hmod5, hdiv9, hmod9, ← List.append_assoc]
  congr 1
  interval_cases n / unit <;> rfl

/-! ## The numeral of a number -/

/-- The numeral of a number, however long it is. -/
def written (n : Nat) : Text := (romanWith romanSigns n).1

/-- The thousands, the hundreds, the tens and the units. -/
theorem written_eq (n : Nat) : written n =
    List.replicate (n / 1000) 'M' ++ (decade 'C' 'D' 'M' (n / 100 % 10) ++
      (decade 'X' 'L' 'C' (n / 10 % 10) ++ decade 'I' 'V' 'X' (n % 10))) := by
  have hhundreds : n % 1000 / 100 = n / 100 % 10 := by omega
  have htens : n % 1000 % 100 / 10 = n / 10 % 10 := by omega
  have hunits : n % 1000 % 100 % 10 / 1 = n % 10 := by omega
  rw [written, romanSigns_eq, romanWith_cons, List.flatten_replicate_singleton, romanWith_decade (by decide) (by omega),
    romanWith_decade (by decide) (by omega), romanWith_decade (by decide) (by omega), hhundreds, htens, hunits]
  exact congrArg _ (congrArg _ (congrArg _ (List.append_nil _)))

theorem isAlpha_of_mem_written (h : c ∈ written n) : c.isAlpha = true := by
  rw [written_eq] at h
  rcases List.mem_append.1 h with hthousands | h
  · rw [List.eq_of_mem_replicate hthousands]
    rfl
  · rcases List.mem_append.1 h with hhundreds | h
    · rcases mem_decade hhundreds with rfl | rfl | rfl <;> rfl
    · rcases List.mem_append.1 h with htens | hunits
      · rcases mem_decade htens with rfl | rfl | rfl <;> rfl
      · rcases mem_decade hunits with rfl | rfl | rfl <;> rfl

/-! ## Reading -/

/-- The number that a sign stands for. -/
def worth : Char → Int
  | 'M' => 1000
  | 'D' => 500
  | 'C' => 100
  | 'L' => 50
  | 'X' => 10
  | 'V' => 5
  | 'I' => 1
  | _ => 0

/-- The number that signs denote: a sign directly in front of a greater one is subtracted, and all others are added. -/
def reading : Text → Int
  | [] => 0
  | [c] => worth c
  | c :: d :: rest => (if worth c < worth d then -worth c else worth c) + reading (d :: rest)

/-- Signs in front of signs that are no greater are read by themselves. -/
theorem reading_append {k : Int} (hs : ∀ c ∈ s, k ≤ worth c) (ht : ∀ c ∈ t, worth c ≤ k) :
    reading (s ++ t) = reading s + reading t := by
  fun_induction reading s with
  | case1 => simp
  | case2 c =>
    cases t with
    | nil => simp [reading]
    | cons d t =>
      have hc : k ≤ worth c := hs c List.mem_cons_self
      have hd : worth d ≤ k := ht d List.mem_cons_self
      rw [List.singleton_append, reading, if_neg (by omega)]
  | case3 c d rest ih =>
    have hrest := ih fun e he => hs e (List.mem_cons_of_mem c he)
    rw [List.cons_append] at hrest
    rw [List.cons_append, List.cons_append, reading, hrest, Int.add_assoc]

/-- Three signs stand for one, five and ten units. -/
structure IsDecade (one five ten : Char) (unit : Int) : Prop where
  pos : 0 < unit
  one : worth one = unit
  five : worth five = unit * 5
  ten : worth ten = unit * 10

namespace IsDecade

variable {unit : Int} (h : IsDecade one five ten unit)
include h

theorem worth_bounds (hc : c ∈ decade one five ten d) : unit ≤ worth c ∧ worth c ≤ unit * 10 := by
  have hpos : 0 < unit := h.pos
  rcases mem_decade hc with rfl | rfl | rfl
  · rw [h.one]
    omega
  · rw [h.five]
    omega
  · rw [h.ten]
    omega

theorem reading_decade (hd : d < 10) : reading (decade one five ten d) = unit * d := by
  obtain ⟨hpos, hone, hfive, hten⟩ := h
  have hfour : worth one < worth five := by omega
  have hnine : worth one < worth ten := by omega
  have hsix : ¬ worth five < worth one := by omega
  interval_cases d <;> simp [decade, reading, hfour, hnine, hsix] <;> omega

/-- The digit of a decade in front of lower ones. -/
theorem reading_decade_append (hd : d < 10) (ht : ∀ c ∈ t, worth c ≤ unit) :
    reading (decade one five ten d ++ t) = unit * d + reading t := by
  rw [reading_append (fun c hc => (h.worth_bounds hc).1) ht, h.reading_decade hd]

end IsDecade

/-- So many thousands in front of the rest. -/
theorem reading_replicate_append (k : Nat) (ht : ∀ c ∈ t, worth c ≤ 1000) :
    reading (List.replicate k 'M' ++ t) = 1000 * k + reading t := by
  induction k with
  | zero => simp
  | succ k ih =>
    have hfirst : ∀ c ∈ ['M'], 1000 ≤ worth c := List.forall_mem_singleton.2 (Int.le_refl 1000)
    have hlater : ∀ c ∈ List.replicate k 'M' ++ t, worth c ≤ 1000 := by
      intro c hc
      rcases List.mem_append.1 hc with hc | hc
      · rw [List.eq_of_mem_replicate hc]
        exact Int.le_refl 1000
      · exact ht c hc
    have happend := reading_append hfirst hlater
    rw [List.replicate_succ, List.cons_append, ← List.singleton_append, happend, ih]
    show 1000 + (1000 * (k : Int) + reading t) = 1000 * (k + 1 : Nat) + reading t
    omega

theorem isDecade_hundreds : IsDecade 'C' 'D' 'M' 100 := ⟨by decide, rfl, rfl, rfl⟩

theorem isDecade_tens : IsDecade 'X' 'L' 'C' 10 := ⟨by decide, rfl, rfl, rfl⟩

theorem isDecade_units : IsDecade 'I' 'V' 'X' 1 := ⟨by decide, rfl, rfl, rfl⟩

/-- A numeral is read as the number that it has been written for. -/
theorem reading_written (n : Nat) : reading (written n) = n := by
  have hunits : ∀ c ∈ decade 'I' 'V' 'X' (n % 10), worth c ≤ 10 := fun c hc => (isDecade_units.worth_bounds hc).2
  have htens : ∀ c ∈ decade 'X' 'L' 'C' (n / 10 % 10) ++ decade 'I' 'V' 'X' (n % 10), worth c ≤ 100 := by
    intro c hc
    rcases List.mem_append.1 hc with hc | hc
    · exact (isDecade_tens.worth_bounds hc).2
    · exact (hunits c hc).trans (by decide)
  have hhundreds : ∀ c ∈ decade 'C' 'D' 'M' (n / 100 % 10) ++
      (decade 'X' 'L' 'C' (n / 10 % 10) ++ decade 'I' 'V' 'X' (n % 10)), worth c ≤ 1000 := by
    intro c hc
    rcases List.mem_append.1 hc with hc | hc
    · exact (isDecade_hundreds.worth_bounds hc).2
    · exact (htens c hc).trans (by decide)
  rw [written_eq, reading_replicate_append _ hhundreds,
    isDecade_hundreds.reading_decade_append (Nat.mod_lt _ (by decide)) htens,
    isDecade_tens.reading_decade_append (Nat.mod_lt _ (by decide)) hunits,
    isDecade_units.reading_decade (Nat.mod_lt _ (by decide))]
  omega

/-! ## Repetition -/

theorem count_decade_eq_zero (hone : c ≠ one) (hfive : c ≠ five) (hten : c ≠ ten) : (decade one five ten d).count c = 0 := by
  refine List.count_eq_zero.2 fun hmem => ?_
  rcases mem_decade hmem with h | h | h <;> contradiction

theorem count_one_le (hfive : five ≠ one) (hten : ten ≠ one) : (decade one five ten d).count one ≤ 3 := by
  unfold decade
  split <;> simp [hfive, hten]

theorem count_five_le (hone : one ≠ five) (hten : ten ≠ five) : (decade one five ten d).count five ≤ 1 := by
  unfold decade
  split <;> simp [hone, hten]

theorem count_ten_le (hone : one ≠ ten) (hfive : five ≠ ten) : (decade one five ten d).count ten ≤ 1 := by
  unfold decade
  split <;> simp [hone, hfive]

/-- A digit does not begin with the sign for ten. -/
theorem head?_decade_append (h : (decade one five ten d ++ t).head? = some c) :
    c = one ∨ c = five ∨ t.head? = some c := by
  unfold decade at h
  split at h <;> simp_all

/-- A run of a sign does not go on into signs that begin with another one. -/
theorem replicate_infix_append {k : Nat} (ht : t.head? ≠ some c) (h : List.replicate k c <:+: s ++ t) :
    List.replicate k c <:+: s ∨ List.replicate k c <:+: t := by
  rcases List.infix_append_iff.1 h with hs | hinside | ⟨front, behind, hsplit, hfront, hbehind⟩
  · exact .inl hs
  · exact .inr hinside
  · cases behind with
    | nil =>
      rw [hsplit, List.append_nil]
      exact .inl hfront.isInfix
    | cons d behind =>
      have hd : d = c := by
        refine List.eq_of_mem_replicate (n := k) ?_
        rw [hsplit]
        simp
      obtain ⟨rest, rfl⟩ := hbehind
      exact absurd (congrArg some hd) ht

theorem not_infix_of_count_le (hs : s.count c ≤ 3) : ¬ List.replicate 4 c <:+: s := by
  intro h
  have hcount := h.count_le c
  rw [List.count_replicate_self] at hcount
  omega

theorem not_infix_append_of_count_le (ht : t.head? ≠ some c) (hs : s.count c ≤ 3) (ht' : t.count c ≤ 3) :
    ¬ List.replicate 4 c <:+: s ++ t := fun h =>
  (replicate_infix_append ht h).elim (not_infix_of_count_le hs) (not_infix_of_count_le ht')

theorem count_thousands (hc : c ≠ 'M') (k : Nat) (t : Text) : (List.replicate k 'M' ++ t).count c = t.count c := by
  have hzero : (List.replicate k 'M').count c = 0 := List.count_eq_zero.2 fun hmem => hc (List.eq_of_mem_replicate hmem)
  rw [List.count_append, hzero, Nat.zero_add]

/-- The signs for one, ten and hundred stand at most three times in a row. -/
theorem not_replicate_infix_written (n : Nat) (hc : c ∈ ['I', 'X', 'C']) : ¬ List.replicate 4 c <:+: written n := by
  rw [written_eq]
  simp only [List.mem_cons, List.not_mem_nil, or_false] at hc
  rcases hc with rfl | rfl | rfl
  · -- it stands among the units only
    refine not_infix_of_count_le ?_
    rw [count_thousands (by decide), List.count_append, List.count_append,
      count_decade_eq_zero (by decide) (by decide) (by decide),
      count_decade_eq_zero (by decide) (by decide) (by decide), Nat.zero_add, Nat.zero_add]
    exact count_one_le (by decide) (by decide)
  · -- it stands among the tens, and again in a unit that does not begin with it
    rw [← List.append_assoc (decade ..), ← List.append_assoc]
    refine not_infix_append_of_count_le (fun hhead => ?_) ?_ ((count_ten_le (by decide) (by decide)).trans (by decide))
    · rw [← List.append_nil (decade ..)] at hhead
      rcases head?_decade_append hhead with h | h | h <;> cases h
    · rw [count_thousands (by decide), List.count_append,
        count_decade_eq_zero (by decide) (by decide) (by decide), Nat.zero_add]
      exact count_one_le (by decide) (by decide)
  · -- it stands among the hundreds, and again in tens that do not begin with it
    rw [← List.append_assoc]
    refine not_infix_append_of_count_le (fun hhead => ?_) ?_ ?_
    · rcases head?_decade_append hhead with h | h | hunits
      · cases h
      · cases h
      · rw [← List.append_nil (decade ..)] at hunits
        rcases head?_decade_append hunits with h | h | h <;> cases h
    · rw [count_thousands (by decide)]
      exact count_one_le (by decide) (by decide)
    · have hunits : (decade 'I' 'V' 'X' (n % 10)).count 'C' = 0 :=
        count_decade_eq_zero (by decide) (by decide) (by decide)
      rw [List.count_append, hunits]
      exact (count_ten_le (by decide) (by decide)).trans (by decide)

/-- The signs for five, fifty and five hundred stand at most once. -/
theorem count_written_le (n : Nat) (hc : c ∈ ['V', 'L', 'D']) : (written n).count c ≤ 1 := by
  have helsewhere : ∀ {one five ten sign : Char} {d : Nat}, sign ≠ one ∧ sign ≠ five ∧ sign ≠ ten →
      (decade one five ten d).count sign = 0 := fun h => count_decade_eq_zero h.1 h.2.1 h.2.2
  have hV : (decade 'I' 'V' 'X' (n % 10)).count 'V' ≤ 1 := count_five_le (by decide) (by decide)
  have hL : (decade 'X' 'L' 'C' (n / 10 % 10)).count 'L' ≤ 1 := count_five_le (by decide) (by decide)
  have hD : (decade 'C' 'D' 'M' (n / 100 % 10)).count 'D' ≤ 1 := count_five_le (by decide) (by decide)
  rw [written_eq]
  simp only [List.mem_cons, List.not_mem_nil, or_false] at hc
  rcases hc with rfl | rfl | rfl <;> rw [count_thousands (by decide), List.count_append, List.count_append]
  · rwa [helsewhere (by decide), helsewhere (by decide), Nat.zero_add, Nat.zero_add]
  · have hunits : (decade 'I' 'V' 'X' (n % 10)).count 'L' = 0 := helsewhere (by decide)
    rwa [helsewhere (by decide), hunits, Nat.zero_add, Nat.add_zero]
  · have htens : (decade 'X' 'L' 'C' (n / 10 % 10)).count 'D' = 0 := helsewhere (by decide)
    have hunits : (decade 'I' 'V' 'X' (n % 10)).count 'D' = 0 := helsewhere (by decide)
    rwa [htens, hunits]

/-! ## Numerals of numbers -/

theorem written_thousands (n : Nat) : written n = List.replicate (n / 1000) 'M' ++ written (n % 1000) := by
  have hless : n % 1000 / 1000 = 0 := by omega
  have hhundreds : n % 1000 / 100 % 10 = n / 100 % 10 := by omega
  have htens : n % 1000 / 10 % 10 = n / 10 % 10 := by omega
  have hunits : n % 1000 % 10 = n % 10 := by omega
  rw [written_eq (n % 1000), hless, hhundreds, htens, hunits]
  exact written_eq n

theorem roman_of_pos [Memory] {n : Number} (hn : 0 < n.toInt) : roman n =
    if Memory.grants (romanRoom n.toInt.toNat) then .ok (written n.toInt.toNat) else .error (.invalidNumber n.text) :=
  if_neg (Int.not_le.2 hn)

/-- The empty numeral. -/
theorem roman_of_nonpos [Memory] {n : Number} (hn : n.toInt ≤ 0) : roman n = .ok (written n.toInt.toNat) := by
  rw [roman, if_pos hn, Int.toNat_of_nonpos hn]
  rfl

theorem eq_written_of_roman [Memory] {n : Number} (h : roman n = .ok s) : s = written n.toInt.toNat := by
  rcases Int.lt_or_le 0 n.toInt with hn | hn
  · rw [roman_of_pos hn] at h
    split at h
    · exact (Except.ok.inj h).symm
    · cases h
  · rw [roman_of_nonpos hn] at h
    exact (Except.ok.inj h).symm

/-- With room for its numeral, a number is not refused. -/
theorem roman_of_grants [Memory] {n : Number} (hroom : Memory.grants (romanRoom n.toInt.toNat) = true) :
    roman n = .ok (written n.toInt.toNat) := by
  rcases Int.lt_or_le 0 n.toInt with hn | hn
  · exact (roman_of_pos hn).trans (if_pos hroom)
  · exact roman_of_nonpos hn

/-- A positive number is refused for want of room, and no other number is. -/
theorem roman_eq_error_iff [Memory] {n : Number} {e : Error} : roman n = .error e ↔
    0 < n.toInt ∧ Memory.grants (romanRoom n.toInt.toNat) = false ∧ e = .invalidNumber n.text := by
  rcases Int.lt_or_le 0 n.toInt with hn | hn
  · rw [roman_of_pos hn]
    cases Memory.grants (romanRoom n.toInt.toNat) with
    | true => simp
    | false => simp [hn, eq_comm]
  · rw [roman_of_nonpos hn]
    exact ⟨nofun, fun h => absurd h.1 (Int.not_lt.2 hn)⟩

theorem grants_of_roman [Memory] {n : Number} (hn : 0 < n.toInt) (h : roman n = .ok s) :
    Memory.grants (romanRoom n.toInt.toNat) = true := by
  refine Bool.eq_true_of_not_eq_false fun hroom => ?_
  cases h.symm.trans (roman_eq_error_iff.2 ⟨hn, hroom, rfl⟩)

/-- The numeral of a positive number is its thousands in front of the numeral of the rest; it is read as the number;
the signs for one, ten and hundred stand in it at most three times in a row, and those for five, fifty and five hundred
at most once; and no other positive number has it.  The rest and the other number may be written with another memory;
the rest is refused only if there is no room for it. -/
theorem roman_canonical [Memory] {n : Number} (hn : 0 < n.toInt) (h : roman n = .ok s) :
    (∃ rest, s = List.replicate (n.toInt.toNat / 1000) 'M' ++ rest ∧ ∀ [Memory],
      (Memory.grants (romanRoom (n % 1000).toInt.toNat) = true → roman (n % 1000) = .ok rest) ∧
        ∀ rest', roman (n % 1000) = .ok rest' → rest' = rest) ∧
      reading s = n.toInt ∧ (∀ c ∈ ['I', 'X', 'C'], ¬ List.replicate 4 c <:+: s) ∧
      (∀ c ∈ ['V', 'L', 'D'], s.count c ≤ 1) ∧
      ∀ [Memory] (m : Number), 0 < m.toInt → roman m = .ok s → m = n := by
  have hread : ∀ [Memory] (m : Number), 0 < m.toInt → roman m = .ok s → reading s = m.toInt := by
    intro _ m hm hroman
    rw [eq_written_of_roman hroman, reading_written, Int.toNat_of_nonneg (Int.le_of_lt hm)]
  have hs := eq_written_of_roman h
  have hself := hread n hn h
  refine ⟨⟨written (n % 1000).toInt.toNat, ?_, fun {_} => ⟨roman_of_grants, fun _ => eq_written_of_roman⟩⟩, hself,
    ?_, ?_, fun {_} m hm hroman => Int64.toInt_inj.1 ((hread m hm hroman).symm.trans hself)⟩
  · have hmod : (n % 1000).toInt = n.toInt % 1000 := by
      rw [Int64.toInt_mod, Int.tmod_eq_emod_of_nonneg (Int.le_of_lt hn)]
      rfl
    have hrest : (n % 1000).toInt.toNat = n.toInt.toNat % 1000 := by omega
    rw [hrest]
    exact hs.trans (written_thousands _)
  · exact fun c hc => hs ▸ not_replicate_infix_written _ hc
  · exact fun c hc => hs ▸ count_written_le _ hc

/-- A numeral with a pair in each decade. -/
theorem roman_canonical_pairs :
    let _ : Memory := .upTo 4096
    let s := "MMMCDXLIX".toList
    let n : Number := 3449
    0 < n.toInt ∧ roman n = .ok s ∧ reading s = 3449 ∧ roman (n % 1000) = .ok "CDXLIX".toList ∧
      (∀ c ∈ ['I', 'X', 'C'], ¬ List.replicate 4 c <:+: s) ∧ (∀ c ∈ ['V', 'L', 'D'], s.count c ≤ 1) ∧
      ∀ m : Number, 0 < m.toInt → roman m = .ok s → m = n := by
  intro _ s n
  have hn : 0 < n.toInt := by decide
  have hroman : roman n = .ok s := by decide +kernel
  obtain ⟨⟨rest, hs, hrest⟩, hread, hruns, hfives, honly⟩ := roman_canonical hn hroman
  have hthousands : n.toInt.toNat / 1000 = 3 := by decide
  rw [hthousands] at hs
  have hsplit : "MMM".toList ++ "CDXLIX".toList = "MMM".toList ++ rest := hs
  obtain rfl := List.append_cancel_left hsplit
  exact ⟨hn, hroman, hread, hrest.1 (by decide), hruns, hfives, honly⟩

end DocState.Numeral
