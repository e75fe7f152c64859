import DocState.Proofs.Counters.Cascade

/-!
# Values after many steps

A counter counts its own steps.  Each step of an ancestor makes it begin at zero again, so that in the end it shows how
often it has been stepped since then, as far as numbers go.

* `Counters.Above cs name j`: the counter of this name is an ancestor of the one at `j`.
* `Counters.Tally cs steps j c v`: the value `v` that steps of counters should make of the counter `c` at `j`.
* `WellFormed.tally_nil`, `WellFormed.tally_cons`: no step, and one step in front of others.
* `WellFormed.exists_run_steps`: steps of counters one after the other make this of all values.
* `values_of_steps`: the same on counters that can be reached.
-/

open Relation

namespace DocState
namespace Counters

/-- The counter of this name is an ancestor of the one at `j`, and not that counter itself. -/
def Above (cs : Counters) (name : Text) (j : Nat) : Prop := ∃ i, cs.place name = .ok i ∧ cs.Below j i

/-- What is counted at `j`: the steps behind the last one of an ancestor, or all of them from the value before. -/
structure Tally (cs : Counters) (steps : List Text) (j : Nat) (c : Counter) (v : Number) : Prop where
  continued : (∀ name ∈ steps, ¬ cs.Above name j) →
    v.toInt = min (c.value.toInt + steps.count c.name) Number.highest
  restarted : ∀ before name after, steps = before ++ name :: after → cs.Above name j →
    (∀ later ∈ after, ¬ cs.Above later j) → v.toInt = min (after.count c.name : Int) Number.highest

variable {cs : Counters} {name : Text} {i j : Nat} {c : Counter}

theorem above_revalue (f : Nat → Number → Number) : (cs.revalue f).Above name j ↔ cs.Above name j := by
  simp only [Above, Below, parentOf_revalue]
  rfl

theorem exists_place_of_contains (h : cs.contains name = true) : ∃ i, cs.place name = .ok i := by
  obtain ⟨i, hplace⟩ := Option.isSome_iff_exists.1 h
  exact ⟨i, by rw [place, hplace]⟩

theorem above_iff_below (hi : cs.place name = .ok i) : cs.Above name j ↔ cs.Below j i := by
  constructor
  · rintro ⟨k, hk, hbelow⟩
    obtain rfl : i = k := Except.ok.inj (hi.symm.trans hk)
    exact hbelow
  · exact fun hbelow => ⟨i, hi, hbelow⟩

namespace WellFormed

theorem name_eq_iff (h : WellFormed cs) (hi : cs.place name = .ok i) (hc : cs.arena[j]? = some c) :
    name = c.name ↔ j = i := by
  have hname : cs.place c.name = .ok j := h.place_eq_ok_iff.2 (by rw [getElem?_names, hc, Option.map_some])
  constructor
  · rintro rfl
    exact Except.ok.inj (hname.symm.trans hi)
  · rintro rfl
    have hat := h.place_eq_ok_iff.1 hi
    rw [getElem?_names, hc, Option.map_some] at hat
    exact (Option.some.inj hat).symm

theorem tally_nil (cs : Counters) (j : Nat) (c : Counter) : Tally cs [] j c c.value where
  continued _ := by
    have hle := Number.toInt_le_highest c.value
    rw [List.count_nil]
    omega
  restarted before name after hsplit := by
    cases before <;> cases hsplit

/-- A step in front of others: it is one of an ancestor, which is where counting begins if none follows, or the own one,
which counts, or it does not matter. -/
theorem tally_cons (h : WellFormed cs) (hi : cs.place name = .ok i) (hc : cs.arena[j]? = some c) {steps : List Text}
    {v : Number} (hlater : Tally cs steps j { c with value := valueAfterStep cs.parentOf i j c.value } v) :
    Tally cs (name :: steps) j c v where
  continued hnone := by
    obtain ⟨hfirst, hothers⟩ := List.forall_mem_cons.1 hnone
    have hv := hlater.continued hothers
    have hown := h.name_eq_iff hi hc
    have hcount : (0 : Int) ≤ steps.count c.name := Int.natCast_nonneg _
    by_cases hj : j = i
    · rw [hj, valueAfterStep_self, toInt_plus_one] at hv
      rw [List.count_cons, if_pos (beq_iff_eq.2 (hown.2 hj)), hv]
      push_cast
      omega
    · rw [valueAfterStep_of_not_below hj (mt (above_iff_below hi).2 hfirst)] at hv
      rw [List.count_cons, if_neg fun heq => hj (hown.1 (beq_iff_eq.1 heq))]
      exact hv
  restarted before name' after hsplit habove hothers := by
    cases before with
    | nil =>
      obtain ⟨rfl, rfl⟩ := List.cons.inj hsplit
      have hbelow := (above_iff_below hi).1 habove
      have hj : j ≠ i := by
        rintro rfl
        exact h.parents_acyclic j hbelow
      have hv := hlater.continued hothers
      rw [valueAfterStep_of_below hj hbelow] at hv
      simpa using hv
    | cons first before =>
      obtain ⟨-, hrest⟩ := List.cons.inj hsplit
      exact hlater.restarted before name' after hrest habove hothers

theorem run_steps_cons (h : WellFormed cs) (hi : cs.place name = .ok i) (steps : List Text) :
    (forM (name :: steps) step : Update Counters Unit).run cs =
      (forM steps step : Update Counters Unit).run (cs.revalue (valueAfterStep cs.parentOf i)) := by
  rw [List.forM_cons, EStateM.run_bind, h.run_step hi]

/-- The links stay as they are, so that the steps to come count in the same way after each step. -/
theorem exists_run_steps (h : WellFormed cs) {steps : List Text} (hthere : ∀ name ∈ steps, cs.contains name = true) :
    ∃ cs', (forM steps step).run cs = .ok () cs' ∧ ∀ (j : Nat) (c : Counter), cs.arena[j]? = some c →
      ∃ v, cs'.arena[j]? = some { c with value := v } ∧ Tally cs steps j c v := by
  induction steps generalizing cs with
  | nil => exact ⟨cs, rfl, fun j c hc => ⟨c.value, hc, tally_nil cs j c⟩⟩
  | cons name steps ih =>
    obtain ⟨hfirst, hothers⟩ := List.forall_mem_cons.1 hthere
    obtain ⟨i, hi⟩ := exists_place_of_contains hfirst
    let next := cs.revalue (valueAfterStep cs.parentOf i)
    obtain ⟨cs', hrun, hvalues⟩ := ih (h.revalue (valueAfterStep cs.parentOf i)) hothers
    refine ⟨cs', (h.run_steps_cons hi steps).trans hrun, fun j c hc => ?_⟩
    have hnext : next.arena[j]? = some { c with value := valueAfterStep cs.parentOf i j c.value } := by
      rw [getElem?_revalue, hc, Option.map_some]
    obtain ⟨v, hv, htally⟩ := hvalues j _ hnext
    refine ⟨v, hv, h.tally_cons hi hc ⟨fun hnone => ?_, fun before name' after hsplit habove hlater => ?_⟩⟩
    · exact htally.continued fun name' hmem => mt (above_revalue _).1 (hnone name' hmem)
    · exact htally.restarted before name' after hsplit ((above_revalue _).2 habove) fun name'' hmem =>
        mt (above_revalue _).1 (hlater name'' hmem)

end WellFormed

/-- Steps of counters that are there, one after the other, are all accepted.  In the end each counter has the number of
its steps behind the last step of an ancestor, if there is one, and else its value at the beginning with the number of
all its steps, up to the greatest number; and nothing but values has changed. -/
theorem values_of_steps (h : Reachable cs) {steps : List Text} (hthere : ∀ name ∈ steps, cs.contains name = true) :
    ∃ cs', (forM steps step).run cs = .ok () cs' ∧ ∀ (j : Nat) (c : Counter), cs.arena[j]? = some c →
      ∃ v, cs'.arena[j]? = some { c with value := v } ∧
        ((∀ name ∈ steps, ¬ cs.Above name j) →
          v.toInt = min (c.value.toInt + steps.count c.name) Number.highest) ∧
        ∀ before name after, steps = before ++ name :: after → cs.Above name j →
          (∀ later ∈ after, ¬ cs.Above later j) → v.toInt = min (after.count c.name : Int) Number.highest := by
  obtain ⟨cs', hrun, hvalues⟩ := h.wellFormed.exists_run_steps hthere
  refine ⟨cs', hrun, fun j c hc => ?_⟩
  obtain ⟨v, hv, htally⟩ := hvalues j c hc
  exact ⟨v, hv, htally.continued, htally.restarted⟩

/-- A chapter with a section, which have counted something already, and a page one below the greatest number. -/
def volume : Counters :=
  empty.afterAll
    [.create "chapter".toList none 5, .create "section".toList (some "chapter".toList) 7,
      .create "page".toList none 9223372036854775806]

/-- Two sections behind the second chapter, and a page too many. -/
theorem values_of_steps_volume :
    let steps := ["chapter".toList, "section".toList, "page".toList, "chapter".toList, "section".toList,
      "page".toList, "section".toList]
    Reachable volume ∧ (∀ name ∈ steps, volume.contains name = true) ∧
      ∃ cs', (forM steps step).run volume = .ok () cs' ∧
        cs'.arena[0]?.map (·.value.toInt) = some 7 ∧
        cs'.arena[1]?.map (·.value.toInt) = some 2 ∧
        cs'.arena[2]?.map (·.value.toInt) = some Number.highest := by
  intro steps
  have hreach : Reachable volume := ⟨_, rfl⟩
  have hthere : ∀ name ∈ steps, volume.contains name = true := by decide
  have hfree : ∀ j, volume.parentOf j = none → ∀ name, ¬ volume.Above name j := by
    rintro j hnone name ⟨i, -, hbelow⟩
    obtain ⟨k, hleads, -⟩ := TransGen.head'_iff.1 hbelow
    rw [Link.Leads, hnone] at hleads
    cases hleads
  have hchapter : volume.Above "chapter".toList 1 := ⟨0, by rfl, .single (by rfl)⟩
  have hothers : ∀ later ∈ ["section".toList, "page".toList, "section".toList], ¬ volume.Above later 1 := by
    have hnames : ∀ later ∈ ["section".toList, "page".toList, "section".toList], volume.place later ≠ .ok 0 := by
      decide
    have hparent : volume.parentOf 1 = some 0 := by rfl
    rintro later hmem ⟨i, hi, hbelow⟩
    obtain ⟨k, hleads, hreaches⟩ := TransGen.head'_iff.1 hbelow
    obtain rfl : k = 0 := Option.some.inj (hleads.symm.trans hparent)
    rcases reflTransGen_iff_eq_or_transGen.1 hreaches with rfl | hbelow
    · exact hnames later hmem hi
    · exact hfree 0 (by rfl) later ⟨i, hi, hbelow⟩
  obtain ⟨cs', hrun, hvalues⟩ := values_of_steps hreach hthere
  refine ⟨hreach, hthere, cs', hrun, ?_, ?_, ?_⟩
  · obtain ⟨v, hv, hall, -⟩ := hvalues 0 ⟨"chapter".toList, 5, none, [1], .plain⟩ (by rfl)
    rw [hv]
    exact congrArg some ((hall fun name _ => hfree 0 (by rfl) name).trans (by decide))
  · obtain ⟨v, hv, -, hbehind⟩ := hvalues 1 ⟨"section".toList, 7, some 0, [], .plain⟩ (by rfl)
    have hcount := hbehind ["chapter".toList, "section".toList, "page".toList] _ _ rfl hchapter hothers
    rw [hv]
    exact congrArg some (hcount.trans (by decide))
  · obtain ⟨v, hv, hall, -⟩ := hvalues 2 ⟨"page".toList, 9223372036854775806, none, [], .plain⟩ (by rfl)
    rw [hv]
    exact congrArg some ((hall fun name _ => hfree 2 (by rfl) name).trans (by decide))

end Counters
end DocState
