import DocState.Proofs.Counters.WellFormed

/-!
# Counters on the move

Attaching a counter takes it from its parent and hands it to another one, so that what counts in the end is the last
parent that it was given.

* `Counters.Circular cs i above display`: the link from `i` to `above` would close a circle.
* `Counters.Moved cs cs' i above display`: `cs'` is `cs` with the counter at `i` moved below `above`, and all else as it
  was.
* `WellFormed.getElem?_rewire`: a moved counter is taken out of all children before it is handed to its new parent.
  `WellFormed.rewire_rewire`: of two moves of one counter, the first leaves no trace.  `rewire_self`: nor does freeing a
  counter that is free.
* `attach_of_reachable`: which moves are refused, and what the others do.
* `attach_attach`: after any move, a move with display does what it would have done before.
* `detach_attach`: detaching undoes the move of a free counter, whatever values have changed since.
-/

open Relation

namespace DocState
namespace Counters

/-! ## Definitions -/

/-- With `above` as its parent, the counter at `i` would be reset through itself, or, if it is to be displayed behind
`above` as well, displayed through itself. -/
def Circular (cs : Counters) (i above : Nat) (display : Bool) : Prop :=
  ¬ Link.Acyclic (Function.update cs.parentOf i (some above)) ∨
    display = true ∧ ¬ Link.Acyclic (Function.update cs.prefixOf i (some above))

/-- The counter at `i` has become the last child of the one at `above`, and, with `display`, is displayed behind it.  Its
value and its own children stay as they were, and so does everything else. -/
structure Moved (cs cs' : Counters) (i above : Nat) (display : Bool) : Prop where
  places_eq : cs'.places = cs.places
  size_eq : cs'.size = cs.size
  getElem?_self : ∀ c : Counter, cs.arena[i]? = some c →
    cs'.arena[i]? = some { c with
      parent := some above
      display := if display then .behind above else c.display }
  getElem?_above : ∀ c : Counter, cs.arena[above]? = some c →
    cs'.arena[above]? = some { c with children := c.children.filter (· != i) ++ [i] }
  /-- The former parent keeps its other children in their order. -/
  getElem?_former : ∀ (j : Nat) (c : Counter), cs.parentOf i = some j → j ≠ above → cs.arena[j]? = some c →
    cs'.arena[j]? = some { c with children := c.children.filter (· != i) }
  getElem?_other : ∀ j, j ≠ i → j ≠ above → cs.parentOf i ≠ some j → cs'.arena[j]? = cs.arena[j]?

/-- The value at a place, if there is a counter. -/
def valueAt (cs : Counters) (i : Nat) : Option Number := cs.arena[i]?.map (·.value)

variable {cs : Counters} {name above : Text} {i parent : Nat} {c : Counter}

@[simp] theorem place_rewire (i : Nat) (parent : Option Nat) (display : Display → Display) :
    (cs.rewire i parent display).place name = cs.place name := by
  rw [place, places_rewire, place]

@[simp] theorem place_revalue (f : Nat → Number → Number) : (cs.revalue f).place name = cs.place name := rfl

@[simp] theorem valueAt_revalue (f : Nat → Number → Number) (i : Nat) :
    (cs.revalue f).valueAt i = (cs.valueAt i).map (f i) := by
  simp [valueAt, getElem?_revalue, Function.comp_def]

@[simp] theorem valueAt_rewire (i : Nat) (parent : Option Nat) (display : Display → Display) (j : Nat) :
    (cs.rewire i parent display).valueAt j = cs.valueAt j := by
  simp [valueAt, getElem?_rewire, Function.comp_def]

theorem getElem?_of_find (hi : cs.place name = .ok i) (hc : cs.find name = .ok c) : cs.arena[i]? = some c := by
  unfold place at hi
  unfold find find? at hc
  cases hplace : cs.places.get? name with
  | none => simp [hplace] at hi
  | some j =>
    obtain rfl : j = i := by simpa [hplace] using hi
    cases hget : cs.arena[j]? <;> simp_all

/-! ## What a move leaves -/

/-- Other values do not matter to a move. -/
theorem rewire_revalue (f : Nat → Number → Number) (i : Nat) (parent : Option Nat) (display : Display → Display) :
    (cs.revalue f).rewire i parent display = (cs.rewire i parent display).revalue f := by
  refine ext_getElem? (fun j => ?_) (by simp)
  simp [getElem?_rewire, getElem?_revalue, Function.comp_def]

/-- What a move closes does not depend on where the counter comes from. -/
theorem circular_rewire (hi : cs.arena[i]? = some c) (former : Option Nat) (shown : Display → Display) (above : Nat)
    (display : Bool) : (cs.rewire i former shown).Circular i above display ↔ cs.Circular i above display := by
  rw [Circular, parentOf_rewire hi, prefixOf_rewire hi, Function.update_idem, Function.update_idem, Circular]

namespace WellFormed

theorem closesCircle_iff_circular (h : WellFormed cs) {i above : Nat} (habove : above < cs.size) (display : Bool) :
    cs.closesCircle i above display = true ↔ cs.Circular i above display := by
  rw [h.closesCircle_iff habove, Circular, h.parents_acyclic.update_some_iff, h.prefixes_acyclic.update_some_iff,
    not_not, not_not]

/-- A counter leaves the children of its parent, and it is not among those of others. -/
theorem dropped_eq_filter (h : WellFormed cs) {j : Nat} (hc : cs.arena[j]? = some c) (i : Nat) :
    (if cs.parentOf i = some j then c.children.erase i else c.children) = c.children.filter (· != i) := by
  rw [← childrenOf_of_getElem? hc]
  by_cases hparent : cs.parentOf i = some j
  · rw [if_pos hparent, (h.nodup_childrenOf j).erase_eq_filter i]
  · rw [if_neg hparent, List.filter_eq_self.2]
    intro k hk
    rw [bne_iff_ne]
    rintro rfl
    exact hparent ((h.mem_childrenOf_iff k j).1 hk)

/-- A move, place by place: the counter is among no children before it is handed to its parent. -/
theorem getElem?_rewire (h : WellFormed cs) (i : Nat) (parent : Option Nat) (display : Display → Display) (j : Nat) :
    (cs.rewire i parent display).arena[j]? =
      cs.arena[j]?.map fun c =>
        { c with
          parent := if j = i then parent else c.parent
          children := c.children.filter (· != i) ++ if parent = some j then [i] else []
          display := if j = i then display c.display else c.display } := by
  rw [Counters.getElem?_rewire]
  cases hc : cs.arena[j]? with
  | none => rfl
  | some c => rw [Option.map_some, Option.map_some, h.dropped_eq_filter hc]

/-- Only the last of two moves of a counter counts. -/
theorem rewire_rewire (h : WellFormed cs) {first : Option Nat} {shown : Display → Display}
    (hfirst : WellFormed (cs.rewire i first shown)) (second : Option Nat) (display : Display → Display) :
    (cs.rewire i first shown).rewire i second display = cs.rewire i second (display ∘ shown) := by
  refine ext_getElem? (fun j => ?_) (by simp)
  rw [hfirst.getElem?_rewire, h.getElem?_rewire, h.getElem?_rewire, Option.map_map]
  congr 1
  funext c
  have hgone : (if first = some j then [i] else []).filter (· != i) = [] := by split <;> simp
  by_cases hj : j = i <;> simp [hj, List.filter_append, hgone]

theorem parentOf_ne_self (h : WellFormed cs) (i : Nat) : cs.parentOf i ≠ some i :=
  fun hself => h.parents_acyclic i (.single hself)

/-- A move that closes no circle changes the counter, its former parent and its new one. -/
theorem moved_rewire (h : WellFormed cs) {display : Bool} (hcircle : ¬ cs.Circular i parent display) :
    Moved cs (cs.rewire i (some parent) fun shown => if display then .behind parent else shown) i parent display := by
  have hne : parent ≠ i := by
    rintro rfl
    refine hcircle (.inl fun hac => hac parent (.single ?_))
    rw [Link.Leads, Function.update_self]
  have hparent : some parent ≠ some i := fun heq => hne (Option.some.inj heq)
  constructor
  case places_eq => exact places_rewire i _ _
  case size_eq => exact size_rewire
  case getElem?_self =>
    intro c hc
    simp [Counters.getElem?_rewire, hc, h.parentOf_ne_self i, hparent]
  case getElem?_above =>
    intro c hc
    simp [h.getElem?_rewire, hc, hne]
  case getElem?_former =>
    intro j c hj habove hc
    have hself : j ≠ i := by
      rintro rfl
      exact h.parentOf_ne_self j hj
    simp [h.getElem?_rewire, hc, hself, Ne.symm habove]
  case getElem?_other =>
    intro j hself habove hj
    simp [Counters.getElem?_rewire, hself, Ne.symm habove, hj]

end WellFormed

/-- Freeing a counter that is free changes nothing. -/
theorem rewire_self (hi : cs.arena[i]? = some c) (hfree : c.parent = none) {display : Display → Display}
    (hdisplay : display c.display = c.display) : cs.rewire i none display = cs := by
  refine ext_getElem? (fun j => ?_) (by simp)
  have hparent : cs.parentOf i ≠ some j := by simp [parentOf_of_getElem? hi, hfree]
  rw [getElem?_rewire]
  by_cases hj : j = i
  · subst hj
    simp only [hi, Option.map_some, hparent, hdisplay, reduceCtorEq, if_true, if_false, List.append_nil]
    rw [← hfree]
  · simp [hj, hparent]

/-! ## Moves -/

/-- A move that is accepted. -/
theorem exists_of_run_attach {display : Bool} {cs' : Counters} (hrun : (attach name above display).run cs = .ok () cs') :
    ∃ i parent, cs.place name = .ok i ∧ cs.place above = .ok parent ∧ ¬ cs.closesCircle i parent display = true ∧
      cs' = cs.rewire i (some parent) fun shown => if display then .behind parent else shown := by
  rcases attach_cases name above display cs with ⟨e, hrefused⟩ | ⟨i, parent, hi, hp, hc, hdone⟩
  · cases hrefused.symm.trans hrun
  · exact ⟨i, parent, hi, hp, hc, (EStateM.Result.ok.inj (hdone.symm.trans hrun)).2.symm⟩

/-- A counter is moved below another one unless that closes a circle of parents or, if it is to be displayed behind its
new parent, a circle of prefixes.  Then the move is refused and nothing changes; else nothing changes but the links that
make the move. -/
theorem attach_of_reachable (h : Reachable cs) (hi : cs.place name = .ok i) (hp : cs.place above = .ok parent)
    (display : Bool) :
    ((attach name above display).run cs = .error (.counterCycle name above) cs ↔ cs.Circular i parent display) ∧
    (¬ cs.Circular i parent display →
      ∃ cs', (attach name above display).run cs = .ok () cs' ∧ Moved cs cs' i parent display) := by
  have hwf := h.wellFormed
  have hcircle := hwf.closesCircle_iff_circular (i := i) (hwf.lt_size_of_place hp) display
  have hrun := run_attach name above display cs
  simp only [hi, hp] at hrun
  by_cases hc : cs.Circular i parent display
  · rw [if_pos (hcircle.2 hc)] at hrun
    exact ⟨⟨fun _ => hc, fun _ => hrun⟩, fun hnot => absurd hc hnot⟩
  · rw [if_neg (mt hcircle.1 hc)] at hrun
    refine ⟨⟨fun herror => ?_, fun hnot => absurd hnot hc⟩, fun _ => ⟨_, hrun, hwf.moved_rewire hc⟩⟩
    cases hrun.symm.trans herror

/-- `B` was displayed behind `A` before `D` began to reset it beside `E`. -/
def regrouped : Counters :=
  empty.afterAll
    [.create ['A'] none 1, .create ['B'] none 2, .create ['D'] none 9, .create ['E'] (some ['D']) 4,
      .attach ['B'] ['A'] true, .attach ['B'] ['D'] false]

/-- The display of `B` is the one reason to refuse `A`; and `E` is moved behind its sibling below its own parent. -/
theorem attach_regrouped : Reachable regrouped ∧
    regrouped.place ['A'] = .ok 0 ∧ regrouped.place ['B'] = .ok 1 ∧ regrouped.place ['D'] = .ok 2 ∧
    regrouped.place ['E'] = .ok 3 ∧ regrouped.parentOf 3 = some 2 ∧ regrouped.childrenOf 2 = [3, 1] ∧
    (attach ['A'] ['B'] true).run regrouped = .error (.counterCycle ['A'] ['B']) regrouped ∧
    ∃ cs', (attach ['E'] ['D'] true).run regrouped = .ok () cs' ∧
      cs'.arena[2]? = some ⟨['D'], 9, none, [1, 3], .plain⟩ ∧
      cs'.arena[3]? = some ⟨['E'], 4, some 2, [], .behind 2⟩ := by
  have hreach : Reachable regrouped := ⟨_, rfl⟩
  have hA : regrouped.place ['A'] = .ok 0 := by rfl
  have hB : regrouped.place ['B'] = .ok 1 := by rfl
  have hD : regrouped.place ['D'] = .ok 2 := by rfl
  have hE : regrouped.place ['E'] = .ok 3 := by rfl
  have hcircle : regrouped.Circular 0 1 true :=
    .inr ⟨rfl, fun hac => hac 0 (.tail (.single (show _ = some 1 by rfl)) (show _ = some 0 by rfl))⟩
  have hfree : ¬ regrouped.Circular 3 2 true :=
    mt (hreach.wellFormed.closesCircle_iff_circular (by decide) true).2 (by decide)
  obtain ⟨cs', hrun, hmoved⟩ := (attach_of_reachable hreach hE hD true).2 hfree
  exact ⟨hreach, hA, hB, hD, hE, by rfl, by rfl, (attach_of_reachable hreach hA hB true).1.2 hcircle, cs', hrun,
    hmoved.getElem?_above ⟨['D'], 9, none, [3, 1], .plain⟩ (by rfl),
    hmoved.getElem?_self ⟨['E'], 4, some 2, [], .plain⟩ (by rfl)⟩

/-! ## Moving once more -/

/-- The second of two moves of a counter, with a display of its own, does not see the first one. -/
theorem WellFormed.run_attach_rewire (h : WellFormed cs) {display : Bool} {cs' : Counters}
    (hrun : (attach name above display).run cs = .ok () cs') (second : Text) :
    (∃ e, (attach name second true).run cs = .error e cs ∧ (attach name second true).run cs' = .error e cs') ∨
      ∃ cs'', (attach name second true).run cs = .ok () cs'' ∧ (attach name second true).run cs' = .ok () cs'' := by
  obtain ⟨i, parent, hi, hp, hc, rfl⟩ := exists_of_run_attach hrun
  have hlt := h.lt_size_of_place hi
  have hmoved := h.rewire_some hlt (h.lt_size_of_place hp) hc
  obtain ⟨c, hget⟩ := exists_getElem?_of_lt hlt
  simp only [run_attach, place_rewire, hi]
  cases hs : cs.place second with
  | error e => exact .inl ⟨e, rfl, rfl⟩
  | ok last =>
    have hlast := h.lt_size_of_place hs
    have hsame : (cs.rewire i (some parent) fun shown => if display then .behind parent else shown).closesCircle
        i last true = cs.closesCircle i last true := by
      rw [Bool.eq_iff_iff, hmoved.closesCircle_iff_circular (by rwa [size_rewire]), circular_rewire hget,
        h.closesCircle_iff_circular hlast]
    simp only [hsame, h.rewire_rewire hmoved]
    by_cases hcircle : cs.closesCircle i last true = true
    · simp only [if_pos hcircle]
      exact .inl ⟨_, rfl, rfl⟩
    · simp only [if_neg hcircle]
      exact .inr ⟨_, rfl, rfl⟩

/-- Once a counter has been moved, a move with display is refused or accepted as it would have been before, and leads to
the very counters that it would have led to.  Made once more, it changes nothing. -/
theorem attach_attach (h : Reachable cs) {display : Bool} {cs' : Counters}
    (hrun : (attach name above display).run cs = .ok () cs') (second : Text) :
    (∃ e, (attach name second true).run cs = .error e cs ∧ (attach name second true).run cs' = .error e cs') ∨
      ∃ cs'', (attach name second true).run cs = .ok () cs'' ∧ (attach name second true).run cs' = .ok () cs'' ∧
        (attach name second true).run cs'' = .ok () cs'' := by
  rcases h.wellFormed.run_attach_rewire hrun second with hrefused | ⟨cs'', hbefore, hafter⟩
  · exact .inl hrefused
  · refine .inr ⟨cs'', hbefore, hafter, ?_⟩
    -- the move may as well have been the one that is made once more
    rcases h.wellFormed.run_attach_rewire hbefore second with ⟨e, herror, -⟩ | ⟨last, hlast, hagain⟩
    · cases hbefore.symm.trans herror
    · cases hbefore.symm.trans hlast
      exact hagain

/-- `E` is moved away and comes back behind its sibling, as if it had never been away. -/
theorem attach_attach_regrouped : Reachable regrouped ∧
    ∃ cs' cs'', (attach ['E'] ['A'] false).run regrouped = .ok () cs' ∧
      (attach ['E'] ['D'] true).run regrouped = .ok () cs'' ∧ (attach ['E'] ['D'] true).run cs' = .ok () cs'' ∧
      (attach ['E'] ['D'] true).run cs'' = .ok () cs'' := by
  have hreach : Reachable regrouped := ⟨_, rfl⟩
  have hrun : (attach ['E'] ['A'] false).run regrouped = .ok () ((attach ['E'] ['A'] false).after regrouped) := by rfl
  have hthere : (attach ['E'] ['D'] true).run regrouped = .ok () ((attach ['E'] ['D'] true).after regrouped) := by rfl
  rcases attach_attach hreach hrun ['D'] with ⟨e, herror, -⟩ | ⟨cs'', hbefore, hafter, hagain⟩
  · cases hthere.symm.trans herror
  · exact ⟨hreach, _, cs'', hrun, hbefore, hafter, hagain⟩

/-! ## Taking a move back -/

/-- A counter is freed from the parent that it has been given, whatever values there are by then. -/
theorem WellFormed.run_detach_rewire (h : WellFormed cs) (hc : cs.find name = .ok c) (hfree : c.parent = none)
    (hplain : c.display = .plain) {display : Bool} {cs' : Counters}
    (hrun : (attach name above display).run cs = .ok () cs') (f : Nat → Number → Number) :
    (detach name above).run (cs'.revalue f) = .ok () (cs.revalue f) := by
  obtain ⟨i, parent, hi, hp, hcircle, rfl⟩ := exists_of_run_attach hrun
  have hget := getElem?_of_find hi hc
  have hmoved := h.rewire_some (h.lt_size_of_place hi) (h.lt_size_of_place hp) hcircle
  rw [run_detach]
  simp only [place_revalue, place_rewire, hi, hp, parentOf_revalue, parentOf_rewire hget, Function.update_self, if_true]
  rw [rewire_revalue, h.rewire_rewire hmoved, rewire_self hget hfree hplain.symm]

/-- A counter that is free and displayed alone may be moved below another one and be detached again: then all is as it
was before.  Values that are changed in between keep their changes; the links and the displays are those from before the
move. -/
theorem detach_attach (h : Reachable cs) (hc : cs.find name = .ok c) (hfree : c.parent = none)
    (hplain : c.display = .plain) {display : Bool} {cs' : Counters}
    (hrun : (attach name above display).run cs = .ok () cs') :
    (detach name above).run cs' = .ok () cs ∧
    ∀ ops : List Operation, (∀ op ∈ ops, op.changesValues = true) →
      ∃ cs'', (detach name above).run (cs'.afterAll ops) = .ok () cs'' ∧ cs''.places = cs.places ∧
        cs''.size = cs.size ∧ ∀ (j : Nat) (c : Counter), cs.arena[j]? = some c →
          ∃ v, cs''.arena[j]? = some { c with value := v } ∧ (cs'.afterAll ops).valueAt j = some v := by
  have hback := h.wellFormed.run_detach_rewire hc hfree hplain hrun
  refine ⟨by simpa only [revalue_id] using hback fun _ v => v, fun ops hops => ?_⟩
  obtain ⟨f, hf⟩ := exists_afterAll_eq_revalue hops cs'
  obtain ⟨i, parent, -, -, -, rfl⟩ := exists_of_run_attach hrun
  refine ⟨cs.revalue f, hf ▸ hback f, rfl, size_revalue f, fun j c hj => ⟨f j c.value, ?_, ?_⟩⟩
  · rw [getElem?_revalue, hj, Option.map_some]
  · rw [hf, valueAt_revalue, valueAt_rewire, valueAt, hj, Option.map_some, Option.map_some]

/-- `A` is moved behind `E`, and a step of `D` and a new value come in between. -/
theorem detach_attach_regrouped :
    let ops := [.step ['D'], .set ['A'] 7]
    Reachable regrouped ∧ regrouped.find ['A'] = .ok ⟨['A'], 1, none, [], .plain⟩ ∧
      ∃ cs' cs'', (attach ['A'] ['E'] true).run regrouped = .ok () cs' ∧
        (detach ['A'] ['E']).run cs' = .ok () regrouped ∧
        (∀ op ∈ ops, Operation.changesValues op = true) ∧
        (detach ['A'] ['E']).run (cs'.afterAll ops) = .ok () cs'' ∧
        cs''.arena[0]? = some ⟨['A'], 7, none, [], .plain⟩ ∧
        cs''.arena[3]? = some ⟨['E'], 0, some 2, [], .plain⟩ := by
  intro ops
  have hreach : Reachable regrouped := ⟨_, rfl⟩
  have hfind : regrouped.find ['A'] = .ok ⟨['A'], 1, none, [], .plain⟩ := by rfl
  have hrun : (attach ['A'] ['E'] true).run regrouped = .ok () ((attach ['A'] ['E'] true).after regrouped) := by rfl
  have hops : ∀ op ∈ ops, Operation.changesValues op = true := by decide
  obtain ⟨hback, hlater⟩ := detach_attach hreach hfind rfl rfl hrun
  obtain ⟨cs'', hdetach, -, -, hvalues⟩ := hlater ops hops
  refine ⟨hreach, hfind, _, cs'', hrun, hback, hops, hdetach, ?_, ?_⟩
  · obtain ⟨v, hv, hvalue⟩ := hvalues 0 ⟨['A'], 1, none, [], .plain⟩ (by rfl)
    obtain rfl : v = 7 := Option.some.inj (hvalue.symm.trans (by rfl))
    exact hv
  · obtain ⟨v, hv, hvalue⟩ := hvalues 3 ⟨['E'], 4, some 2, [], .plain⟩ (by rfl)
    obtain rfl : v = 0 := Option.some.inj (hvalue.symm.trans (by rfl))
    exact hv

end Counters
end DocState
