import Mathlib.Computability.StateTransition
import DocState.Proofs.Numerals.Roman

/-!
# Roman numerals, round by round

A numeral is written in rounds: a sign that fits into the rest of the number is written and its worth subtracted, and a
sign that does not fit any more is given up for the next one.  The rest is a 64-bit number, and the room for the text
has been granted before the first round.

* `Writing`: the work in its midst.  `Writing.next?`: one round.
* `romanWith_of_le`, `romanWith_of_lt`: a round inside the division that counts all rounds of a sign at once.
* `Writes s w`: what is kept in all rounds.  `Writes.next`: a round keeps it and comes closer to the end.
* `length_written_le`, `utf8ByteSize_of_letters`: the length of a numeral, in characters and in bytes.
* `room_of_roman`: the rounds come to an end, at the numeral and at zero, with a rest that has never been negative and
  with a text that has never been longer than the room.
-/

namespace DocState.Numeral

/-- A numeral that is being written: the signs that have not been given up, the text so far, and what is left of the
number. -/
structure Writing where
  signs : List (Text × Nat)
  text : Text
  rest : Number

namespace Writing

/-- Before the first round. -/
def start (n : Number) : Writing := ⟨romanSigns, [], n⟩

/-- One round: the first sign is written if the rest is not less than its worth, and given up otherwise.  There is no
round without signs. -/
def next? : Writing → Option Writing
  | ⟨[], _, _⟩ => none
  | ⟨(sign, worth) :: signs, text, rest⟩ =>
    if Int64.ofNat worth ≤ rest then some ⟨(sign, worth) :: signs, text ++ sign, rest - Int64.ofNat worth⟩
    else some ⟨signs, text, rest⟩

/-- A round makes the rest or the list of signs smaller. -/
def measure (w : Writing) : Nat := w.rest.toInt.toNat + w.signs.length

end Writing

/-! ## One round -/

variable {s sign text : Text} {worth n : Nat} {signs : List (Text × Nat)} {rest : Number} {w w' : Writing}

theorem romanWith_of_le (hpos : 0 < worth) (h : worth ≤ n) :
    romanWith ((sign, worth) :: signs) n =
      (sign ++ (romanWith ((sign, worth) :: signs) (n - worth)).1,
        (romanWith ((sign, worth) :: signs) (n - worth)).2) := by
  simp only [romanWith, Nat.div_eq_sub_div hpos h, Nat.mod_eq_sub_mod h, List.replicate_succ, List.flatten_cons,
    List.append_assoc]

theorem romanWith_of_lt (h : n < worth) : romanWith ((sign, worth) :: signs) n = romanWith signs n := by
  simp only [romanWith, Nat.div_eq_of_lt h, Nat.mod_eq_of_lt h, List.replicate_zero, List.flatten_nil, List.nil_append]

theorem romanSigns_worth : ∀ p ∈ romanSigns, 0 < p.2 ∧ p.2 ≤ 1000 := by decide

/-- The rest is not negative, and the text goes on to the numeral: this is what the signs that are left make of the rest,
and they leave nothing of it. -/
structure Writes (s : Text) (w : Writing) : Prop where
  nonneg : 0 ≤ w.rest.toInt
  signs : w.signs <:+ romanSigns
  whole : ∃ later, romanWith w.signs w.rest.toInt.toNat = (later, 0) ∧ w.text ++ later = s

/-- The worth of a sign is a number in range. -/
theorem toInt_ofNat_worth (h : (sign, worth) ∈ romanSigns) : (Int64.ofNat worth).toInt = worth := by
  have hle : worth ≤ 1000 := (romanSigns_worth _ h).2
  exact Int64.toInt_ofNat_of_lt (by omega)

/-- As long as a sign fits, its worth is subtracted without leaving the range. -/
theorem toInt_sub_worth (h : (sign, worth) ∈ romanSigns) (hfits : Int64.ofNat worth ≤ rest) :
    (worth : Int) ≤ rest.toInt ∧ (rest - Int64.ofNat worth).toInt = rest.toInt - worth := by
  have hworth := toInt_ofNat_worth h
  have hnonneg : 0 ≤ Int64.ofNat worth := by
    rw [Int64.le_iff_toInt_le, hworth, Int64.toInt_zero]
    omega
  constructor
  · rwa [Int64.le_iff_toInt_le, hworth] at hfits
  · rw [Int64.toInt_sub_of_le _ _ hnonneg hfits, hworth]

namespace Writes

theorem finished (h : Writes s ⟨[], text, rest⟩) : text = s ∧ rest = 0 := by
  obtain ⟨hnonneg, -, later, hlater, rfl⟩ := h
  obtain ⟨rfl, hzero⟩ : [] = later ∧ rest.toInt.toNat = 0 := Prod.mk.inj hlater
  have hrest : rest.toInt = 0 := Int.le_antisymm (Int.toNat_eq_zero.1 hzero) hnonneg
  exact ⟨(List.append_nil text).symm, Int64.toInt_inj.1 hrest⟩

theorem write (h : Writes s ⟨(sign, worth) :: signs, text, rest⟩) (hfits : Int64.ofNat worth ≤ rest) :
    Writes s ⟨(sign, worth) :: signs, text ++ sign, rest - Int64.ofNat worth⟩ ∧
      (rest - Int64.ofNat worth).toInt.toNat < rest.toInt.toNat := by
  obtain ⟨-, hsigns, later, hlater, rfl⟩ := h
  have hmem : (sign, worth) ∈ romanSigns := hsigns.subset List.mem_cons_self
  have hpos : 0 < worth := (romanSigns_worth _ hmem).1
  obtain ⟨hle, hsub⟩ := toInt_sub_worth hmem hfits
  have hsubNat : (rest - Int64.ofNat worth).toInt.toNat = rest.toInt.toNat - worth := by omega
  have hround := @romanWith_of_le sign worth rest.toInt.toNat signs hpos (by omega)
  obtain ⟨rfl, hleft⟩ := Prod.mk.inj (hround.symm.trans hlater)
  refine ⟨⟨?_, hsigns, _, ?_, List.append_assoc text sign _⟩, by omega⟩
  · show 0 ≤ (rest - Int64.ofNat worth).toInt
    omega
  · show romanWith _ (rest - Int64.ofNat worth).toInt.toNat = _
    rw [hsubNat]
    exact Prod.ext rfl hleft

theorem giveUp (h : Writes s ⟨(sign, worth) :: signs, text, rest⟩) (hless : ¬ Int64.ofNat worth ≤ rest) :
    Writes s ⟨signs, text, rest⟩ := by
  have hnonneg : 0 ≤ rest.toInt := h.nonneg
  obtain ⟨-, hsigns, later, hlater, hwhole⟩ := h
  rw [Int64.le_iff_toInt_le, toInt_ofNat_worth (hsigns.subset List.mem_cons_self)] at hless
  have hlessNat : rest.toInt.toNat < worth := by omega
  exact ⟨hnonneg, (List.suffix_cons _ _).trans hsigns, later, (romanWith_of_lt hlessNat).symm.trans hlater, hwhole⟩

/-- A round keeps the numeral and comes closer to the end, and there is a round as long as the end is not reached. -/
theorem next (h : Writes s w) :
    w = ⟨[], s, 0⟩ ∨ ∃ w', w.next? = some w' ∧ Writes s w' ∧ w'.measure < w.measure := by
  obtain ⟨_ | ⟨⟨sign, worth⟩, signs⟩, text, rest⟩ := w
  · obtain ⟨rfl, rfl⟩ := h.finished
    exact .inl rfl
  · by_cases hfits : Int64.ofNat worth ≤ rest
    · obtain ⟨hwrites, hless⟩ := h.write hfits
      exact .inr ⟨_, if_pos hfits, hwrites, Nat.add_lt_add_right hless _⟩
    · exact .inr ⟨_, if_neg hfits, h.giveUp hfits, Nat.lt_succ_self _⟩

/-! ## All rounds -/

theorem of_reaches (h : Writes s w) (hreach : StateTransition.Reaches Writing.next? w w') : Writes s w' := by
  induction hreach with
  | refl => exact h
  | tail _ hnext ih =>
    obtain rfl | ⟨w', hnext', hw', -⟩ := ih.next
    · cases hnext
    · rwa [Option.mem_unique hnext hnext']

theorem reaches (h : Writes s w) : StateTransition.Reaches Writing.next? w ⟨[], s, 0⟩ := by
  induction hm : w.measure using Nat.strong_induction_on generalizing w with
  | _ m ih =>
    obtain rfl | ⟨w', hnext, hw', hless⟩ := h.next
    · exact .refl
    · exact .head hnext (ih _ (hm ▸ hless) hw' rfl)

end Writes

theorem romanWith_romanSigns (n : Nat) : romanWith romanSigns n = (written n, 0) :=
  Prod.ext rfl (Nat.mod_one _)

theorem writes_start {n : Number} (hn : 0 ≤ n.toInt) : Writes (written n.toInt.toNat) (.start n) :=
  ⟨hn, List.suffix_rfl, _, romanWith_romanSigns _, rfl⟩

/-! ## Room -/

theorem length_decade_le (one five ten : Char) (d : Nat) : (decade one five ten d).length ≤ 4 := by
  unfold decade
  split <;> simp

/-- Behind the thousands there are four signs at most for each decade. -/
theorem length_written_le (n : Nat) : (written n).length ≤ n / 1000 + 12 := by
  have hhundreds := length_decade_le 'C' 'D' 'M' (n / 100 % 10)
  have htens := length_decade_le 'X' 'L' 'C' (n / 10 % 10)
  have hunits := length_decade_le 'I' 'V' 'X' (n % 10)
  rw [written_eq, List.length_append, List.length_append, List.length_append, List.length_replicate]
  omega

/-- A letter is a single byte. -/
theorem utf8Size_of_isAlpha {c : Char} (h : c.isAlpha = true) : c.utf8Size = 1 := by
  rw [Char.utf8Size_eq_one_iff]
  rcases Bool.or_eq_true_iff.1 h with hupper | hlower
  · have hle : c.val ≤ 'Z'.val := (of_decide_eq_true hupper).2
    exact UInt32.le_trans hle (by decide)
  · have hle : c.val ≤ 'z'.val := of_decide_eq_true (Bool.and_eq_true_iff.1 hlower).2
    exact UInt32.le_trans hle (by decide)

theorem utf8ByteSize_of_letters {t : Text} (h : ∀ c ∈ t, c.isAlpha = true) :
    (String.ofList t).utf8ByteSize = t.length := by
  induction t with
  | nil => rfl
  | cons c t ih =>
    have hfirst := utf8Size_of_isAlpha (h c List.mem_cons_self)
    have hrest := ih fun d hd => h d (List.mem_cons_of_mem c hd)
    rw [String.ofList_cons, String.utf8ByteSize_append, String.utf8ByteSize_singleton, hfirst, hrest, Nat.add_comm,
      List.length_cons]

/-- The numeral of a positive number fits into the room that has been granted before it is written.  It is written in
rounds that come to an end: in all of them the rest is not negative and the text takes no more bytes than there is room
for, and at the end the text is the numeral and the rest is zero. -/
theorem room_of_roman [Memory] {n : Number} (hn : 0 < n.toInt) (h : roman n = .ok s) :
    Memory.grants (romanRoom n.toInt.toNat) = true ∧ s.length ≤ romanRoom n.toInt.toNat ∧
      (∀ w, StateTransition.Reaches Writing.next? (.start n) w →
        0 ≤ w.rest.toInt ∧ (String.ofList w.text).utf8ByteSize ≤ romanRoom n.toInt.toNat) ∧
      StateTransition.eval Writing.next? (.start n) = Part.some ⟨[], s, 0⟩ := by
  have hgrants := grants_of_roman hn h
  obtain rfl := eq_written_of_roman h
  have hstart := writes_start (Int.le_of_lt hn)
  have hroom : (written n.toInt.toNat).length ≤ romanRoom n.toInt.toNat :=
    (length_written_le _).trans (Nat.add_le_add_left (by decide) _)
  refine ⟨hgrants, hroom, fun w hw => ?_, ?_⟩
  · obtain ⟨hnonneg, -, later, -, hwhole⟩ := hstart.of_reaches hw
    refine ⟨hnonneg, ?_⟩
    have hletters : ∀ c ∈ w.text, c.isAlpha = true := fun c hc =>
      isAlpha_of_mem_written (hwhole ▸ List.mem_append_left later hc)
    rw [← hwhole, List.length_append] at hroom
    rw [utf8ByteSize_of_letters hletters]
    omega
  · exact Part.eq_some_iff.2 (StateTransition.mem_eval.2 ⟨hstart.reaches, rfl⟩)

/-- The longest numeral of a number below four thousand. -/
theorem room_of_roman_longest :
    let _ : Memory := .upTo 4096
    let n : Number := 3888
    let s := "MMMDCCCLXXXVIII".toList
    0 < n.toInt ∧ roman n = .ok s ∧ romanRoom n.toInt.toNat = 18 ∧ Memory.grants 18 = true ∧ s.length ≤ 18 ∧
      (∀ w, StateTransition.Reaches Writing.next? (.start n) w →
        0 ≤ w.rest.toInt ∧ (String.ofList w.text).utf8ByteSize ≤ 18) ∧
      StateTransition.eval Writing.next? (.start n) = Part.some ⟨[], s, 0⟩ := by
  intro _ n s
  have hn : 0 < n.toInt := by decide
  have hroman : roman n = .ok s := by decide +kernel
  have hroom : romanRoom n.toInt.toNat = 18 := by decide
  exact ⟨hn, hroman, hroom, hroom ▸ room_of_roman hn hroman⟩

end DocState.Numeral
