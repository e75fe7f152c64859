import DocState.Proofs.Counters.Recursion

/-!
# What a step does to the values

A step runs through the children of a counter, their children, and so on, and sets each of them to minus one
before it adds one.  Told by the parents alone: the counter grows by one, all counters below it become zero, and
nothing else changes.

* `Counters.Below cs j i`: the parents of `j` lead to `i`.
* `Counters.valueAfterStep`, `Counters.valueAfterSteps`: the values after the step of one counter, and after those
  of several counters that were set to minus one.
* `Stepped.eq_revalue`: the step of a counter gives every counter this value.
* `step_of_reachable`: the same for `Counters.step` on counters that can be reached.
-/

open Relation

namespace DocState
namespace Counters

/-- The counter at `i` is an ancestor of the one at `j`, and not that counter itself. -/
def Below (cs : Counters) (j i : Nat) : Prop := TransGen (Link.Leads cs.parentOf) j i

open Classical in
/-- What the step of the counter at `i` makes of the value `v` at `j`. -/
noncomputable def valueAfterStep (parentOf : Nat → Option Nat) (i j : Nat) (v : Number) : Number :=
  if j = i then v.plus 1 else if TransGen (Link.Leads parentOf) j i then 0 else v

open Classical in
/-- What setting some counters to minus one and stepping them makes of the value `v` at `j`. -/
noncomputable def valueAfterSteps (parentOf : Nat → Option Nat) (places : List Nat) (j : Nat) (v : Number) :
    Number :=
  if ∃ i ∈ places, ReflTransGen (Link.Leads parentOf) j i then 0 else v

theorem minus_one_plus_one : Number.plus (-1) 1 = 0 := by decide

theorem valueAfterSteps_of_mem {parentOf : Nat → Option Nat} {places : List Nat} {i j : Nat} (hi : i ∈ places)
    (hj : ReflTransGen (Link.Leads parentOf) j i) (v : Number) : valueAfterSteps parentOf places j v = 0 :=
  if_pos ⟨i, hi, hj⟩

theorem valueAfterSteps_of_forall_not {parentOf : Nat → Option Nat} {places : List Nat} {j : Nat}
    (h : ∀ i ∈ places, ¬ ReflTransGen (Link.Leads parentOf) j i) (v : Number) :
    valueAfterSteps parentOf places j v = v :=
  if_neg fun ⟨i, hi, hj⟩ => h i hi hj

theorem valueAfterStep_self (parentOf : Nat → Option Nat) (i : Nat) (v : Number) :
    valueAfterStep parentOf i i v = v.plus 1 := if_pos rfl

theorem valueAfterStep_of_below {parentOf : Nat → Option Nat} {i j : Nat} (hj : j ≠ i)
    (h : TransGen (Link.Leads parentOf) j i) (v : Number) : valueAfterStep parentOf i j v = 0 := by
  rw [valueAfterStep, if_neg hj, if_pos h]

theorem valueAfterStep_of_not_below {parentOf : Nat → Option Nat} {i j : Nat} (hj : j ≠ i)
    (h : ¬ TransGen (Link.Leads parentOf) j i) (v : Number) : valueAfterStep parentOf i j v = v := by
  rw [valueAfterStep, if_neg hj, if_neg h]

theorem valueAfterStep_only (parentOf : Nat → Option Nat) (i j : Nat) (v : Number) :
    valueAfterStep parentOf i j (only i (fun _ => -1) j v) = valueAfterSteps parentOf [i] j v := by
  by_cases hj : j = i
  · subst hj
    rw [valueAfterStep_self, valueAfterSteps_of_mem List.mem_cons_self .refl, only, if_pos rfl, minus_one_plus_one]
  · rw [only, if_neg hj]
    by_cases hb : TransGen (Link.Leads parentOf) j i
    · rw [valueAfterStep_of_below hj hb, valueAfterSteps_of_mem List.mem_cons_self hb.to_reflTransGen]
    · rw [valueAfterStep_of_not_below hj hb, valueAfterSteps_of_forall_not]
      intro k hk hreach
      rw [List.mem_singleton.1 hk] at hreach
      rcases reflTransGen_iff_eq_or_transGen.1 hreach with heq | htrans
      · exact hj heq.symm
      · exact hb htrans

theorem valueAfterSteps_cons (parentOf : Nat → Option Nat) (i : Nat) (rest : List Nat) (j : Nat) (v : Number) :
    valueAfterSteps parentOf rest j (valueAfterSteps parentOf [i] j v) =
      valueAfterSteps parentOf (i :: rest) j v := by
  by_cases hrest : ∃ k ∈ rest, ReflTransGen (Link.Leads parentOf) j k
  · obtain ⟨k, hk, hj⟩ := hrest
    rw [valueAfterSteps_of_mem hk hj, valueAfterSteps_of_mem (List.mem_cons_of_mem i hk) hj]
  · have hnot : ∀ k ∈ rest, ¬ ReflTransGen (Link.Leads parentOf) j k := fun k hk hj => hrest ⟨k, hk, hj⟩
    rw [valueAfterSteps_of_forall_not hnot]
    by_cases hi : ReflTransGen (Link.Leads parentOf) j i
    · rw [valueAfterSteps_of_mem List.mem_cons_self hi, valueAfterSteps_of_mem List.mem_cons_self hi]
    · rw [valueAfterSteps_of_forall_not (by simpa using hi),
        valueAfterSteps_of_forall_not (by simpa using ⟨hi, hnot⟩)]

/-- A counter lies below another one if it is one of its children or lies below one of them. -/
theorem below_iff {cs : Counters} (h : WellFormed cs) {i j : Nat} :
    cs.Below j i ↔ ∃ child ∈ cs.childrenOf i, ReflTransGen (Link.Leads cs.parentOf) j child := by
  rw [Below, TransGen.tail'_iff]
  constructor
  · rintro ⟨child, hj, hchild⟩
    exact ⟨child, (h.mem_childrenOf_iff child i).2 hchild, hj⟩
  · rintro ⟨child, hchild, hj⟩
    exact ⟨child, hj, (h.mem_childrenOf_iff child i).1 hchild⟩

theorem valueAfterSteps_childrenOf {cs : Counters} (h : WellFormed cs) (i j : Nat) (v : Number) :
    valueAfterSteps cs.parentOf (cs.childrenOf i) j (only i (·.plus 1) j v) = valueAfterStep cs.parentOf i j v := by
  by_cases hj : j = i
  · -- no counter lies below itself, so that none of its children hands the step back
    subst hj
    rw [valueAfterStep_self, only, if_pos rfl, valueAfterSteps_of_forall_not]
    exact fun k hk hreach => h.parents_acyclic j ((below_iff h).2 ⟨k, hk, hreach⟩)
  · rw [only, if_neg hj]
    by_cases hb : cs.Below j i
    · obtain ⟨k, hk, hreach⟩ := (below_iff h).1 hb
      rw [valueAfterSteps_of_mem hk hreach, valueAfterStep_of_below hj hb]
    · rw [valueAfterStep_of_not_below hj hb, valueAfterSteps_of_forall_not]
      exact fun k hk hreach => hb ((below_iff h).2 ⟨k, hk, hreach⟩)

/-! ## The values after a step -/

theorem ChildrenStepped.eq_revalue {cs cs' : Counters} {places : List Nat} (hs : ChildrenStepped cs places cs')
    (h : WellFormed cs) : cs' = cs.revalue (valueAfterSteps cs.parentOf places) := by
  induction hs with
  | nil =>
    unfold valueAfterSteps
    simp [revalue_id]
  | @cons cs cs₁ _ child rest _ _ ihfirst ihothers =>
    rw [modify_value child fun _ => -1, modify_value child (·.plus 1)] at ihfirst
    have hfirst : cs₁ = cs.revalue (valueAfterSteps cs.parentOf [child]) := by
      rw [ihfirst ((h.revalue _).revalue _), revalue_revalue, revalue_revalue, parentOf_revalue, parentOf_revalue]
      congr 1
      funext j v
      rw [valueAfterSteps_childrenOf h, valueAfterStep_only]
    have hwf : WellFormed cs₁ := by
      rw [hfirst]
      exact h.revalue _
    rw [ihothers hwf, hfirst, revalue_revalue, parentOf_revalue]
    congr 1
    funext j v
    exact valueAfterSteps_cons cs.parentOf child rest j v

theorem Stepped.eq_revalue {cs cs' : Counters} {i : Nat} (hs : Stepped cs i cs') (h : WellFormed cs) :
    cs' = cs.revalue (valueAfterStep cs.parentOf i) := by
  rw [Stepped, modify_value i (·.plus 1)] at hs
  rw [hs.eq_revalue (h.revalue _), revalue_revalue, parentOf_revalue]
  congr 1
  funext j v
  exact valueAfterSteps_childrenOf h i j v

/-- What a step does to counters in order. -/
theorem WellFormed.run_step {cs : Counters} (h : WellFormed cs) {name : Text} {i : Nat}
    (hi : cs.place name = .ok i) :
    (step name).run cs = .ok () (cs.revalue (valueAfterStep cs.parentOf i)) := by
  have hlt := h.lt_size_of_place hi
  have w := Link.walk_chain h.parents_acyclic h.parents_within hlt
  have hpos := w.length_pos
  rw [Counters.run_step, hi]
  simp only
  rw [(stepped_stepAt h w hlt (by omega)).eq_revalue h]

theorem toInt_plus_one (v : Number) : (v.plus 1).toInt = min (v.toInt + 1) Number.highest := by
  have hlow := v.lowest_le_toInt
  have hone : (1 : Number).toInt = 1 := by decide
  have hends : Number.lowest = -9223372036854775808 ∧ Number.highest = 9223372036854775807 := ⟨rfl, rfl⟩
  rw [Number.toInt_plus, hone]
  omega

/-- A step of a counter adds one to it, up to the greatest number; every counter that has it as an ancestor
becomes zero; and the values of all others, and all names and links, stay as they are. -/
theorem step_of_reachable {cs : Counters} (h : Reachable cs) {name : Text} {i : Nat}
    (hi : cs.place name = .ok i) :
    ∃ cs', (step name).run cs = .ok () cs' ∧ cs'.places = cs.places ∧ cs'.size = cs.size ∧
      ∀ (j : Nat) (c : Counter), cs.arena[j]? = some c → ∃ v, cs'.arena[j]? = some { c with value := v } ∧
        (j = i → v.toInt = min (c.value.toInt + 1) Number.highest) ∧
        (cs.Below j i → v = 0) ∧
        (j ≠ i → ¬ cs.Below j i → v = c.value) := by
  have hwf := h.wellFormed
  refine ⟨_, hwf.run_step hi, rfl, size_revalue _, fun j c hc => ?_⟩
  refine ⟨valueAfterStep cs.parentOf i j c.value, by rw [getElem?_revalue, hc]; rfl, fun hj => ?_, fun hb => ?_,
    fun hj hb => ?_⟩
  · rw [hj, valueAfterStep_self, toInt_plus_one]
  · have hj : j ≠ i := by
      rintro rfl
      exact hwf.parents_acyclic j hb
    exact valueAfterStep_of_below hj hb _
  · exact valueAfterStep_of_not_below hj hb _

/-- A counter at the greatest number, two counters below it, of which one was moved there, and one beside it. -/
def chapters : Counters :=
  empty.afterAll
    [.create ['A'] none 9223372036854775807, .create ['B'] (some ['A']) 5, .create ['C'] none 7,
      .create ['X'] none 3, .attach ['C'] ['B'] false]

theorem step_chapters : Reachable chapters ∧ chapters.place ['A'] = .ok 0 ∧
    ∃ cs', (step ['A']).run chapters = .ok () cs' ∧
      cs'.arena[0]?.map (·.value.toInt) = some Number.highest ∧
      cs'.arena[2]? = some ⟨['C'], 0, some 1, [], .plain⟩ ∧
      cs'.arena[3]? = some ⟨['X'], 3, none, [], .plain⟩ := by
  have hreach : Reachable chapters := ⟨_, rfl⟩
  have hplace : chapters.place ['A'] = .ok 0 := by rfl
  obtain ⟨cs', hrun, -, -, hvalues⟩ := step_of_reachable hreach hplace
  refine ⟨hreach, hplace, cs', hrun, ?_, ?_, ?_⟩
  · obtain ⟨v, hv, hstepped, -, -⟩ := hvalues 0 ⟨['A'], 9223372036854775807, none, [1], .plain⟩ (by rfl)
    rw [hv]
    exact congrArg some ((hstepped rfl).trans (by decide))
  · have hbelow : chapters.Below 2 0 :=
      .tail (.single (show chapters.parentOf 2 = some 1 by rfl)) (show chapters.parentOf 1 = some 0 by rfl)
    obtain ⟨v, hv, -, hzero, -⟩ := hvalues 2 ⟨['C'], 7, some 1, [], .plain⟩ (by rfl)
    rw [hv, hzero hbelow]
  · have hbeside : ¬ chapters.Below 3 0 := by
      intro hb
      obtain ⟨b, hleads, -⟩ := TransGen.head'_iff.1 hb
      have hnone : chapters.parentOf 3 = none := by rfl
      simp [Link.Leads, hnone] at hleads
    obtain ⟨v, hv, -, -, hsame⟩ := hvalues 3 ⟨['X'], 3, none, [], .plain⟩ (by rfl)
    rw [hv, hsame (by decide) hbeside]

end Counters
end DocState
