import DocState.Proofs.Counters.Rewiring

/-!
# Counters that have just come

A new counter stands at the next place, and nothing leads to it but the child of its parent, if it has one.

* `place_grow`, `getElem?_grow_of_lt`: the counters that have been there keep their places and all that they hold, and the
  parent of the new one has one more child.
* `value_grow_self`, `run_step_grow_self`: a new counter has its value, and a step of it reaches no other counter.
* `grow_rewire`, `WellFormed.not_closesCircle_grow`: a new counter that is moved below another one could as well
  have been created there, and no move of it closes a circle.
* `create_attach`: the two ways to create a counter below another one, and what becomes of the others.
-/

open Relation

namespace DocState
namespace Counters

variable {cs : Counters} {counter : Counter} {name above : Text} {i parent : Nat} {c : Counter}

/-! ## Names and places -/

theorem place_grow : (cs.grow counter).place name = if counter.name = name then .ok cs.size else cs.place name := by
  rw [place, places_grow, Table.get?_insert]
  by_cases h : counter.name = name
  · rw [if_pos h, if_pos h]
  · rw [if_neg h, if_neg h, place]

theorem contains_grow_self : (cs.grow counter).contains counter.name = true := by
  rw [contains, Table.contains, places_grow, Table.get?_insert, if_pos rfl]
  rfl

theorem place_of_not_contains (h : cs.contains name = false) : cs.place name = .error (.undefinedCounter name) := by
  rw [place, Option.not_isSome_iff_eq_none.1 (Bool.eq_false_iff.1 h)]

/-- A new name takes no place from another one. -/
theorem place_grow_of_place (hnew : cs.contains counter.name = false) (hi : cs.place name = .ok i) :
    (cs.grow counter).place name = .ok i := by
  rw [place_grow, if_neg, hi]
  rintro rfl
  cases (place_of_not_contains hnew).symm.trans hi

/-- No counter is attached yet to a counter that has just come, unless it is its own parent. -/
theorem getElem?_grow_size (hparent : counter.parent ≠ some cs.size) :
    (cs.grow counter).arena[cs.size]? = some counter := by
  rw [getElem?_grow, if_pos rfl, if_neg hparent]
  simp

theorem getElem?_grow_of_lt (hi : cs.arena[i]? = some c) :
    (cs.grow counter).arena[i]? =
      some { c with children := c.children ++ if counter.parent = some i then [cs.size] else [] } := by
  rw [getElem?_grow, if_neg (Nat.ne_of_lt (lt_size_of_getElem? hi)), hi, Option.map_some]

/-! ## Values -/

theorem value_eq_of_place_error {e : Error} (h : cs.place name = .error e) : cs.value name = .error e := by
  unfold place at h
  cases hplace : cs.places.get? name with
  | some i =>
    rw [hplace] at h
    cases h
  | none =>
    rw [hplace] at h
    cases h
    rw [value, find, find?, hplace]
    rfl

theorem value_eq_ok_iff {v : Number} :
    cs.value name = .ok v ↔ ∃ i c, cs.place name = .ok i ∧ cs.arena[i]? = some c ∧ c.value = v := by
  unfold value find find? place
  cases cs.places.get? name with
  | none => simp [bind, Except.bind]
  | some i => cases hc : cs.arena[i]? <;> simp [hc, bind, Except.bind, pure, Except.pure]

theorem value_grow_self (hparent : counter.parent ≠ some cs.size) :
    (cs.grow counter).value counter.name = .ok counter.value :=
  value_eq_ok_iff.2 ⟨cs.size, counter, by rw [place_grow, if_pos rfl], getElem?_grow_size hparent, rfl⟩

/-- The counters that have been there keep their values. -/
theorem value_grow_of_ne (hname : counter.name ≠ name) {v : Number} (h : cs.value name = .ok v) :
    (cs.grow counter).value name = .ok v := by
  obtain ⟨i, c, hplace, hc, rfl⟩ := value_eq_ok_iff.1 h
  refine value_eq_ok_iff.2 ⟨i, _, ?_, getElem?_grow_of_lt hc, rfl⟩
  rw [place_grow, if_neg hname, hplace]

/-- A step of a counter without children reaches no other counter. -/
theorem stepAt_of_childrenOf_eq_nil (h : cs.childrenOf i = []) (depth : Nat) :
    stepAt (depth + 1) i cs = cs.revalue (only i (·.plus 1)) := by
  rw [stepAt, h, List.foldl_nil, modify_value i (·.plus 1)]

theorem run_step_grow_self (hchildren : counter.children = []) (hparent : counter.parent ≠ some cs.size) :
    (step counter.name).run (cs.grow counter) =
      .ok () ((cs.grow counter).revalue (only cs.size (·.plus 1))) := by
  have hnone : (cs.grow counter).childrenOf cs.size = [] := by
    rw [childrenOf_of_getElem? (getElem?_grow_size hparent), hchildren]
  rw [run_step, place_grow, if_pos rfl, size_grow]
  exact congrArg (EStateM.Result.ok ()) (stepAt_of_childrenOf_eq_nil hnone cs.size)

theorem value_revalue {f : Nat → Number → Number} {v : Number} (hplace : cs.place name = .ok i)
    (h : cs.value name = .ok v) : (cs.revalue f).value name = .ok (f i v) := by
  obtain ⟨j, c, hj, hc, rfl⟩ := value_eq_ok_iff.1 h
  obtain rfl : i = j := Except.ok.inj (hplace.symm.trans hj)
  refine value_eq_ok_iff.2 ⟨i, { c with value := f i c.value }, hplace, ?_, rfl⟩
  rw [getElem?_revalue, hc, Option.map_some]

/-! ## A new counter on the move -/

/-- A free counter that is moved below another one as soon as it has come could as well have been created there. -/
theorem grow_rewire (hfree : counter.parent = none) (above : Nat) :
    (cs.grow counter).rewire cs.size (some above) id = cs.grow { counter with parent := some above } := by
  have hparent : (cs.grow counter).parentOf cs.size = none := by rw [parentOf_grow, Function.update_self, hfree]
  refine ext_getElem? (fun j => ?_) (by simp)
  rw [getElem?_rewire, getElem?_grow, getElem?_grow, hparent, hfree]
  by_cases hj : j = cs.size
  · simp [hj]
  · simp [hj]

/-- No counter that has been there is below a new one. -/
theorem WellFormed.not_closesCircle_grow (h : WellFormed cs) (hnew : cs.contains counter.name = false)
    (hfree : counter.parent = none) (hchildren : counter.children = []) (hplain : counter.display = .plain)
    (hparent : parent < cs.size) (display : Bool) : ¬ (cs.grow counter).closesCircle cs.size parent display = true := by
  have hgrow := h.grow hnew (fun p hp => absurd hp (by simp [hfree])) hchildren hplain
  have hparents : (cs.grow counter).parentOf = cs.parentOf := by
    rw [parentOf_grow, hfree, ← parentOf_size, Function.update_eq_self]
  have hprefixes : (cs.grow counter).prefixOf = cs.prefixOf := by
    rw [prefixOf_grow, hplain, Display.prefix?, ← prefixOf_size, Function.update_eq_self]
  rw [hgrow.closesCircle_iff (by rw [size_grow]; exact Nat.lt_succ_of_lt hparent), hparents, hprefixes]
  rintro (hreach | ⟨-, hreach⟩)
  · exact Nat.lt_irrefl _ (h.parents_within.lt_of_reaches hparent hreach)
  · exact Nat.lt_irrefl _ (h.prefixes_within.lt_of_reaches hparent hreach)

/-- Whatever is created, or refused: the counters that have been there keep their places and all that they hold, and a new
counter comes behind the other children of its parent. -/
theorem WellFormed.kept_create (h : WellFormed cs) (name : Text) (parent : Option Text) (initial : Number)
    (hc : cs.arena[i]? = some c) :
    ((create name parent initial).after cs).place c.name = .ok i ∧
      ∃ added, added ⊆ [cs.size] ∧ ((create name parent initial).after cs).arena[i]? =
        some { c with children := c.children ++ added } := by
  have hplace : cs.place c.name = .ok i := h.place_eq_ok_iff.2 (by rw [getElem?_names, hc, Option.map_some])
  rcases create_cases name parent initial cs with ⟨e, hrefused⟩ | ⟨above, hnew, -, hdone⟩
  · rw [Update.after_of_run_error hrefused]
    exact ⟨hplace, [], List.nil_subset _, by rw [List.append_nil, hc]⟩
  · rw [Update.after_of_run_ok hdone]
    refine ⟨place_grow_of_place hnew hplace, _, ?_, getElem?_grow_of_lt hc⟩
    split
    · exact List.Subset.refl _
    · exact List.nil_subset _

/-- A counter that is created free and moved below another one at once. -/
theorem WellFormed.run_create_attach (h : WellFormed cs) (hnew : cs.contains name = false)
    (hp : cs.place above = .ok parent) (initial : Number) :
    (do let i ← create name none initial; attach name above false; return i : Update Counters Nat).run cs =
      .ok cs.size (cs.grow ⟨name, initial, some parent, [], .plain⟩) := by
  let free : Counter := ⟨name, initial, none, [], .plain⟩
  have hcreate : (create name none initial).run cs = .ok cs.size (cs.grow free) := by
    rw [run_create, if_neg (by simp [hnew])]
    rfl
  have hattach : (attach name above false).run (cs.grow free) =
      .ok () ((cs.grow free).rewire cs.size (some parent) id) := by
    have hname : (cs.grow free).place name = .ok cs.size := by rw [place_grow, if_pos rfl]
    have habove : (cs.grow free).place above = .ok parent := place_grow_of_place hnew hp
    have hcircle : ¬ (cs.grow free).closesCircle cs.size parent false = true :=
      h.not_closesCircle_grow hnew rfl rfl rfl (h.lt_size_of_place hp) false
    rw [run_attach]
    simp only [hname, habove, if_neg hcircle]
    rfl
  rw [EStateM.run_bind, hcreate]
  simp only
  rw [EStateM.run_bind, hattach, grow_rewire rfl]
  rfl

/-- A counter of a new name may be created below another one at once, or first be created and then be moved there without
a change of its display: both are accepted and lead to the same counters.  The counters that have been there keep their
places, names, values, parents, displays and children whatever is created, but that a new counter may have joined the
children of its parent behind the others. -/
theorem create_attach (h : Reachable cs) (hnew : cs.contains name = false) (hp : cs.place above = .ok parent)
    (initial : Number) :
    (∃ cs', (create name (some above) initial).run cs = .ok cs.size cs' ∧
      (do let i ← create name none initial; attach name above false; return i : Update Counters Nat).run cs =
        .ok cs.size cs') ∧
    ∀ (created : Text) (under : Option Text) (start : Number) (j : Nat) (c : Counter), cs.arena[j]? = some c →
      ((create created under start).after cs).place c.name = .ok j ∧
        ∃ added, added ⊆ [cs.size] ∧ ((create created under start).after cs).arena[j]? =
          some { c with children := c.children ++ added } := by
  have hwf := h.wellFormed
  have hbelow : cs.parentPlace (some above) = .ok (some parent) := by rw [parentPlace, hp]; rfl
  refine ⟨⟨cs.grow ⟨name, initial, some parent, [], .plain⟩, ?_, hwf.run_create_attach hnew hp initial⟩, ?_⟩
  · rw [run_create, if_neg (by simp [hnew]), hbelow]
  · exact fun created under start j c hc => hwf.kept_create created under start hc

/-- `F` comes below `D` behind two counters that have been attached to it before. -/
theorem create_attach_regrouped : Reachable regrouped ∧ regrouped.contains ['F'] = false ∧
    regrouped.place ['D'] = .ok 2 ∧ regrouped.childrenOf 2 = [3, 1] ∧
    ∃ cs', (create ['F'] (some ['D']) 6).run regrouped = .ok 4 cs' ∧
      (do let i ← create ['F'] none 6; attach ['F'] ['D'] false; return i : Update Counters Nat).run regrouped =
        .ok 4 cs' ∧
      cs'.place ['B'] = .ok 1 ∧ cs'.arena[1]? = some ⟨['B'], 2, some 2, [], .behind 0⟩ ∧
      cs'.arena[2]? = some ⟨['D'], 9, none, [3, 1, 4], .plain⟩ := by
  have hreach : Reachable regrouped := ⟨_, rfl⟩
  have hnew : regrouped.contains ['F'] = false := by rfl
  have hD : regrouped.place ['D'] = .ok 2 := by rfl
  obtain ⟨⟨cs', hcreate, hattach⟩, hkept⟩ := create_attach hreach hnew hD 6
  obtain ⟨hB, -⟩ := hkept ['F'] (some ['D']) 6 1 ⟨['B'], 2, some 2, [], .behind 0⟩ (by rfl)
  obtain rfl := Update.after_of_run_ok hcreate
  exact ⟨hreach, hnew, hD, by rfl, _, hcreate, hattach, hB, by rfl, by rfl⟩

end Counters
end DocState
