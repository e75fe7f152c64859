import DocState.Proofs.Counters.History
import DocState.Proofs.Counters.Rewiring

/-!
# Steps in another order

A step reaches its counter and those below.  Two counters of which neither is above the other have none of these in
common, so that it does not matter which of them is stepped first.  If one is above the other it does matter: the one
below stands at zero if it was stepped first, and at one if it was stepped last.

* `valueAfterStep_comm`: place by place, the steps of two such counters may be exchanged.
* `steps_commute_iff`: on counters that can be reached, the order of two steps does not matter for exactly these counters.
* `run_steps_perm`: nor does the order of any number of steps, if none of their counters is above another one.
-/

open Relation

namespace DocState
namespace Counters

/-! ## Place by place -/

section Values

variable {parentOf : Nat → Option Nat} {i j : Nat}

/-- A step of another counter leaves a zero, whether it reaches the counter or not. -/
theorem valueAfterStep_zero (hj : j ≠ i) : valueAfterStep parentOf i j 0 = 0 := by
  by_cases hb : TransGen (Link.Leads parentOf) j i
  · exact valueAfterStep_of_below hj hb 0
  · exact valueAfterStep_of_not_below hj hb 0

theorem valueAfterStep_comm (hne : i ≠ j) (hij : ¬ TransGen (Link.Leads parentOf) i j)
    (hji : ¬ TransGen (Link.Leads parentOf) j i) (k : Nat) (v : Number) :
    valueAfterStep parentOf j k (valueAfterStep parentOf i k v) =
      valueAfterStep parentOf i k (valueAfterStep parentOf j k v) := by
  rcases eq_or_ne k i with rfl | hki
  · rw [valueAfterStep_of_not_below hne hij, valueAfterStep_of_not_below hne hij]
  rcases eq_or_ne k j with rfl | hkj
  · rw [valueAfterStep_of_not_below hki hji, valueAfterStep_of_not_below hki hji]
  by_cases hb : TransGen (Link.Leads parentOf) k i
  · rw [valueAfterStep_of_below hki hb, valueAfterStep_of_below hki hb, valueAfterStep_zero hkj]
  · rw [valueAfterStep_of_not_below hki hb, valueAfterStep_of_not_below hki hb]

end Values

/-! ## Two steps -/

variable {cs : Counters} {name other : Text} {i j : Nat}

theorem not_below_of_parentOf_eq_none (hfree : cs.parentOf j = none) (i : Nat) : ¬ cs.Below j i := by
  intro hbelow
  obtain ⟨above, habove, -⟩ := TransGen.head'_iff.1 hbelow
  cases hfree.symm.trans habove

namespace WellFormed

theorem ne_of_place (h : WellFormed cs) (hi : cs.place name = .ok i) (hj : cs.place other = .ok j)
    (hne : name ≠ other) : i ≠ j := by
  rintro rfl
  have hname := (h.place_eq_ok_iff.1 hi).symm.trans (h.place_eq_ok_iff.1 hj)
  exact hne (Option.some.inj hname)

theorem run_step_step (h : WellFormed cs) (hi : cs.place name = .ok i) (hj : cs.place other = .ok j) :
    (do step name; step other : Update Counters Unit).run cs =
      .ok () (cs.revalue fun k v => valueAfterStep cs.parentOf j k (valueAfterStep cs.parentOf i k v)) := by
  rw [EStateM.run_bind, h.run_step hi]
  simp only
  rw [(h.revalue _).run_step hj, parentOf_revalue, revalue_revalue]

/-- A counter that is stepped before one above it ends at zero, and at one if it is stepped behind it. -/
theorem not_exchange_of_below (h : WellFormed cs) (hbelow : cs.Below i j) :
    (cs.revalue fun k v => valueAfterStep cs.parentOf j k (valueAfterStep cs.parentOf i k v)) ≠
      cs.revalue fun k v => valueAfterStep cs.parentOf i k (valueAfterStep cs.parentOf j k v) := by
  intro heq
  have hne : i ≠ j := by
    rintro rfl
    exact h.parents_acyclic i hbelow
  obtain ⟨above, habove, -⟩ := TransGen.head'_iff.1 hbelow
  obtain ⟨c, hc⟩ := exists_getElem?_of_lt (h.parents_within i above habove).1
  have hvalue := congrArg (fun cs => valueAt cs i) heq
  simp only [valueAt_revalue] at hvalue
  rw [valueAt, hc, Option.map_some, Option.map_some, Option.map_some, valueAfterStep_of_below hne hbelow,
    valueAfterStep_of_below hne hbelow, valueAfterStep_self] at hvalue
  exact absurd (Option.some.inj hvalue) (by decide)

end WellFormed

/-- Two counters may be stepped one after the other, in either order.  Both orders lead to the same counters, with all
names, values, links and displays, if and only if neither of the two is an ancestor of the other. -/
theorem steps_commute_iff (h : Reachable cs) (hi : cs.place name = .ok i) (hj : cs.place other = .ok j)
    (hne : name ≠ other) :
    ∃ cs₁ cs₂, (do step name; step other : Update Counters Unit).run cs = .ok () cs₁ ∧
      (do step other; step name : Update Counters Unit).run cs = .ok () cs₂ ∧
      (cs₁ = cs₂ ↔ ¬ cs.Below i j ∧ ¬ cs.Below j i) := by
  have hwf := h.wellFormed
  refine ⟨_, _, hwf.run_step_step hi hj, hwf.run_step_step hj hi, fun heq => ⟨fun hij => ?_, fun hji => ?_⟩, ?_⟩
  · exact hwf.not_exchange_of_below hij heq
  · exact hwf.not_exchange_of_below hji heq.symm
  · rintro ⟨hij, hji⟩
    congr 1
    funext k v
    exact valueAfterStep_comm (hwf.ne_of_place hi hj hne) hij hji k v

/-- Each of `A` and `C` has taken over what the other one was created with, and `A` cannot grow. -/
def crosswise : Counters :=
  empty.afterAll
    [.create ['A'] none 9223372036854775807, .create ['B'] (some ['A']) 5, .create ['C'] none 7,
      .create ['D'] (some ['C']) 8, .attach ['B'] ['C'] true, .attach ['D'] ['A'] false]

/-- `A` and `C` may be exchanged, and `A` and its own `D` may not. -/
theorem steps_commute_crosswise : Reachable crosswise ∧
    crosswise.place ['A'] = .ok 0 ∧ crosswise.place ['C'] = .ok 2 ∧ crosswise.place ['D'] = .ok 3 ∧
    crosswise.childrenOf 0 = [3] ∧ crosswise.childrenOf 2 = [1] ∧
    (∃ cs', (do step ['A']; step ['C'] : Update Counters Unit).run crosswise = .ok () cs' ∧
      (do step ['C']; step ['A'] : Update Counters Unit).run crosswise = .ok () cs') ∧
    ∃ cs₁ cs₂, (do step ['A']; step ['D'] : Update Counters Unit).run crosswise = .ok () cs₁ ∧
      (do step ['D']; step ['A'] : Update Counters Unit).run crosswise = .ok () cs₂ ∧ cs₁ ≠ cs₂ := by
  have hreach : Reachable crosswise := ⟨_, rfl⟩
  have hA : crosswise.place ['A'] = .ok 0 := by rfl
  have hC : crosswise.place ['C'] = .ok 2 := by rfl
  have hD : crosswise.place ['D'] = .ok 3 := by rfl
  have hbelow : crosswise.Below 3 0 := .single (show crosswise.parentOf 3 = some 0 by rfl)
  refine ⟨hreach, hA, hC, hD, by rfl, by rfl, ?_, ?_⟩
  · obtain ⟨cs₁, cs₂, hfirst, hsecond, hsame⟩ := steps_commute_iff hreach hA hC (by decide)
    obtain rfl := hsame.2 ⟨not_below_of_parentOf_eq_none (by rfl) 2, not_below_of_parentOf_eq_none (by rfl) 0⟩
    exact ⟨cs₁, hfirst, hsecond⟩
  · obtain ⟨cs₁, cs₂, hfirst, hsecond, hsame⟩ := steps_commute_iff hreach hA hD (by decide)
    exact ⟨cs₁, cs₂, hfirst, hsecond, fun heq => (hsame.1 heq).2 hbelow⟩

/-! ## Many steps -/

/-- Steps of counters that are there may come in any order, if none of them is above another one. -/
theorem WellFormed.run_steps_perm (h : WellFormed cs) {steps steps' : List Text} (hperm : steps.Perm steps')
    (hthere : ∀ name ∈ steps, cs.contains name = true)
    (hapart : ∀ name ∈ steps, ∀ i, cs.place name = .ok i → ∀ other ∈ steps, ¬ cs.Above other i) :
    (forM steps step : Update Counters Unit).run cs = (forM steps' step : Update Counters Unit).run cs := by
  induction hperm generalizing cs with
  | nil => rfl
  | @cons name steps steps' _ ih =>
    obtain ⟨hfirst, hothers⟩ := List.forall_mem_cons.1 hthere
    obtain ⟨i, hi⟩ := exists_place_of_contains hfirst
    rw [h.run_steps_cons hi, h.run_steps_cons hi]
    -- a step moves no counter, so what is apart before it is apart behind it
    refine ih (h.revalue _) hothers fun name' hname' k hk other hother habove => ?_
    exact hapart name' (List.mem_cons_of_mem name hname') k hk other (List.mem_cons_of_mem name hother)
      ((above_revalue _).1 habove)
  | swap first second steps =>
    obtain ⟨i, hi⟩ := exists_place_of_contains (hthere first (by simp))
    obtain ⟨j, hj⟩ := exists_place_of_contains (hthere second (by simp))
    rw [h.run_steps_cons hj, h.run_steps_cons hi, (h.revalue _).run_steps_cons hi, (h.revalue _).run_steps_cons hj,
      parentOf_revalue, parentOf_revalue, revalue_revalue, revalue_revalue]
    rcases eq_or_ne first second with rfl | hne
    · obtain rfl := Except.ok.inj (hi.symm.trans hj)
      rfl
    · have hij := mt (above_iff_below hj).2 (hapart first (by simp) i hi second (by simp))
      have hji := mt (above_iff_below hi).2 (hapart second (by simp) j hj first (by simp))
      congr 2
      funext k v
      exact (valueAfterStep_comm (h.ne_of_place hi hj hne) hij hji k v).symm
  | @trans steps between steps' hfirst _ ihfirst ihsecond =>
    rw [ihfirst h hthere hapart]
    refine ihsecond h (fun name hname => hthere name (hfirst.mem_iff.2 hname)) fun name hname i hi other hother => ?_
    exact hapart name (hfirst.mem_iff.2 hname) i hi other (hfirst.mem_iff.2 hother)

end Counters
end DocState
