import Mathlib.Logic.Function.Basic
import DocState.Counters

/-!
# What the operations on counters do

Each operation is described by the counters after it, place by place, so that later proofs never look into an
operation again.

* `Counters.grow`: the counters with one more at the next place.  `Counters.rewire`: a counter taken from its
  parent and given another one, or none.  `Counters.revalue`: other values at any places.
* `getElem?_grow`, `getElem?_rewire`, `getElem?_revalue`: these three, place by place.
* `run_create`, `run_set`, `run_add`, `run_step`, `run_attach`, `run_detach`: every operation either is refused
  and leaves the counters as they are, or makes one of these changes.
* `create_cases`, `cases_of_run_place`, `attach_cases`, `detach_cases`: the same as a choice, with all that the
  operation has looked at.
-/

namespace DocState
namespace Counters

/-! ## Definitions -/

/-- A place appended to the children of a counter, if there is one to have it. -/
def handTo (cs : Counters) (parent : Option Nat) (i : Nat) : Counters :=
  match parent with
  | none => cs
  | some above => cs.addChild above i

/-- The counters with one more, which its parent has as its last child. -/
def grow (cs : Counters) (counter : Counter) : Counters := (cs.push counter).handTo counter.parent cs.size

/-- The counter at a place taken from its parent and made the last child of another one, if there is to be one,
with a change of its display. -/
def rewire (cs : Counters) (i : Nat) (parent : Option Nat) (display : Display → Display) : Counters :=
  ((cs.dropChild i).handTo parent i).modify i fun c => { c with parent, display := display c.display }

/-- Other values, and the same links. -/
def revalue (cs : Counters) (f : Nat → Number → Number) : Counters :=
  { cs with arena := cs.arena.mapIdx fun i c => { c with value := f i c.value } }

/-- Another value at one place. -/
def only (i : Nat) (f : Number → Number) : Nat → Number → Number := fun j v => if j = i then f v else v

variable {cs : Counters}

theorem ext_getElem? {cs cs' : Counters} (harena : ∀ i : Nat, cs.arena[i]? = cs'.arena[i]?)
    (hplaces : cs.places = cs'.places) : cs = cs' := by
  obtain ⟨arena, places⟩ := cs
  obtain ⟨arena', places'⟩ := cs'
  have h : arena = arena' := List.ext_getElem? harena
  subst h
  subst hplaces
  rfl

/-! ## Place by place -/

theorem getElem?_modify (i : Nat) (f : Counter → Counter) (j : Nat) :
    (cs.modify i f).arena[j]? = cs.arena[j]?.map fun c => if j = i then f c else c := by
  simp only [modify, List.getElem?_modify, eq_comm]
  rfl

theorem getElem?_addChild (above i j : Nat) :
    (cs.addChild above i).arena[j]? =
      cs.arena[j]?.map fun c => { c with children := c.children ++ if above = j then [i] else [] } := by
  rw [addChild, getElem?_modify]
  congr 1
  funext c
  by_cases h : j = above
  · subst h
    simp
  · simp [h, Ne.symm h]

theorem getElem?_dropChild (i j : Nat) :
    (cs.dropChild i).arena[j]? =
      cs.arena[j]?.map fun c =>
        { c with children := if cs.parentOf i = some j then c.children.erase i else c.children } := by
  unfold dropChild
  cases hp : cs.parentOf i with
  | none => simp
  | some above =>
    simp only [getElem?_modify]
    congr 1
    funext c
    by_cases h : j = above
    · subst h
      simp
    · simp [h, Ne.symm h]

theorem getElem?_handTo (parent : Option Nat) (i j : Nat) :
    (cs.handTo parent i).arena[j]? =
      cs.arena[j]?.map fun c => { c with children := c.children ++ if parent = some j then [i] else [] } := by
  cases parent with
  | none => simp [handTo]
  | some above => simp [handTo, getElem?_addChild]

theorem getElem?_revalue (f : Nat → Number → Number) (j : Nat) :
    (cs.revalue f).arena[j]? = cs.arena[j]?.map fun c => { c with value := f j c.value } := by
  simp [revalue, List.getElem?_mapIdx]

theorem getElem?_push (counter : Counter) (j : Nat) :
    (cs.push counter).arena[j]? = if j = cs.size then some counter else cs.arena[j]? := by
  rcases Nat.lt_trichotomy j cs.size with h | h | h
  · rw [push, List.getElem?_append_left h, if_neg (Nat.ne_of_lt h)]
  · subst h
    simp [push, size]
  · rw [if_neg (Nat.ne_of_gt h), List.getElem?_eq_none (Nat.le_of_lt h)]
    exact List.getElem?_eq_none (by simpa [push, size] using Nat.succ_le_of_lt h)

theorem getElem?_grow (counter : Counter) (j : Nat) :
    (cs.grow counter).arena[j]? =
      (if j = cs.size then some counter else cs.arena[j]?).map fun c =>
        { c with children := c.children ++ if counter.parent = some j then [cs.size] else [] } := by
  rw [grow, getElem?_handTo, getElem?_push]

theorem getElem?_rewire (i : Nat) (parent : Option Nat) (display : Display → Display) (j : Nat) :
    (cs.rewire i parent display).arena[j]? =
      cs.arena[j]?.map fun c =>
        { c with
          parent := if j = i then parent else c.parent
          children := (if cs.parentOf i = some j then c.children.erase i else c.children) ++
            if parent = some j then [i] else []
          display := if j = i then display c.display else c.display } := by
  rw [rewire, getElem?_modify, getElem?_handTo, getElem?_dropChild, Option.map_map, Option.map_map]
  congr 1
  funext c
  by_cases h : j = i <;> simp [h]

@[simp] theorem size_modify (i : Nat) (f : Counter → Counter) : (cs.modify i f).size = cs.size := by
  simp [modify, size]

@[simp] theorem size_revalue (f : Nat → Number → Number) : (cs.revalue f).size = cs.size := by
  simp [revalue, size]

@[simp] theorem places_modify (i : Nat) (f : Counter → Counter) : (cs.modify i f).places = cs.places := rfl

@[simp] theorem places_revalue (f : Nat → Number → Number) : (cs.revalue f).places = cs.places := rfl

@[simp] theorem places_addChild (above i : Nat) : (cs.addChild above i).places = cs.places := rfl

@[simp] theorem places_dropChild (i : Nat) : (cs.dropChild i).places = cs.places := by
  unfold dropChild
  cases cs.parentOf i <;> rfl

@[simp] theorem places_handTo (parent : Option Nat) (i : Nat) : (cs.handTo parent i).places = cs.places := by
  cases parent <;> rfl

@[simp] theorem places_rewire (i : Nat) (parent : Option Nat) (display : Display → Display) :
    (cs.rewire i parent display).places = cs.places := by
  simp [rewire]

@[simp] theorem places_grow (counter : Counter) :
    (cs.grow counter).places = cs.places.insert counter.name cs.size := by
  simp [grow, push]

/-! ## Changes of values -/

theorem modify_value (i : Nat) (f : Number → Number) :
    (cs.modify i fun c => { c with value := f c.value }) = cs.revalue (only i f) := by
  refine ext_getElem? (fun j => ?_) rfl
  rw [getElem?_modify, getElem?_revalue]
  congr 1
  funext c
  by_cases h : j = i <;> simp [only, h]

theorem revalue_revalue (f g : Nat → Number → Number) :
    (cs.revalue f).revalue g = cs.revalue fun i v => g i (f i v) := by
  refine ext_getElem? (fun j => ?_) rfl
  simp [getElem?_revalue, Function.comp_def]

theorem revalue_id : cs.revalue (fun _ v => v) = cs := by
  refine ext_getElem? (fun j => ?_) rfl
  simp [getElem?_revalue]

/-- Setting children to minus one and advancing them changes values only, if advancing does. -/
theorem exists_foldl_eq_revalue {advance : Nat → Counters → Counters}
    (hvalues : ∀ child cs, ∃ f, advance child cs = cs.revalue f) (places : List Nat) (cs : Counters) :
    ∃ f, places.foldl (fun cs child => advance child (cs.modify child fun c => { c with value := -1 })) cs =
      cs.revalue f := by
  induction places generalizing cs with
  | nil => exact ⟨_, revalue_id.symm⟩
  | cons child rest ih =>
    obtain ⟨f, hf⟩ := hvalues child (cs.modify child fun c => { c with value := -1 })
    rw [List.foldl_cons, hf, modify_value child fun _ => -1, revalue_revalue]
    obtain ⟨g, hg⟩ := ih (cs.revalue fun i v => f i (only child (fun _ => -1) i v))
    rw [hg, revalue_revalue]
    exact ⟨_, rfl⟩

/-- A step changes values only, whatever its depth. -/
theorem exists_stepAt_eq_revalue (depth i : Nat) (cs : Counters) : ∃ f, stepAt depth i cs = cs.revalue f := by
  induction depth generalizing i cs with
  | zero => exact ⟨_, revalue_id.symm⟩
  | succ depth ih =>
    obtain ⟨f, hf⟩ := exists_foldl_eq_revalue ih (cs.childrenOf i) (cs.revalue (only i (·.plus 1)))
    rw [stepAt, modify_value i (·.plus 1), hf, revalue_revalue]
    exact ⟨_, rfl⟩

/-! ## The operations -/

theorem run_create (name : Text) (parent : Option Text) (initial : Number) (cs : Counters) :
    (create name parent initial).run cs =
      if cs.contains name then .error (.duplicateCounter name) cs
      else match cs.parentPlace parent with
        | .ok above => .ok cs.size (cs.grow ⟨name, initial, above, [], .plain⟩)
        | .error e => .error e cs := by
  unfold create
  by_cases hc : cs.contains name = true
  · simp [hc]
  · cases hp : cs.parentPlace parent with
    | error e => simp [hc, hp]
    | ok above => cases above <;> simp [hc, hp, grow, handTo]

theorem run_set (name : Text) (value : Number) (cs : Counters) :
    (set name value).run cs =
      match cs.place name with
      | .ok i => .ok () (cs.revalue (only i fun _ => value))
      | .error e => .error e cs := by
  unfold set
  cases hp : cs.place name <;> simp [hp, modify_value _ fun _ => value]

theorem run_add (name : Text) (delta : Number) (cs : Counters) :
    (add name delta).run cs =
      match cs.place name with
      | .ok i => .ok () (cs.revalue (only i (·.plus delta)))
      | .error e => .error e cs := by
  unfold add
  cases hp : cs.place name <;> simp [hp, modify_value _ (Number.plus · delta)]

theorem run_step (name : Text) (cs : Counters) :
    (step name).run cs =
      match cs.place name with
      | .ok i => .ok () (stepAt cs.size i cs)
      | .error e => .error e cs := by
  unfold step
  cases hp : cs.place name <;> simp [hp]

theorem run_attach (name above : Text) (display : Bool) (cs : Counters) :
    (attach name above display).run cs =
      match cs.place name, cs.place above with
      | .ok i, .ok parent =>
        if cs.closesCircle i parent display then .error (.counterCycle name above) cs
        else .ok () (cs.rewire i (some parent) fun shown => if display then .behind parent else shown)
      | .error e, _ => .error e cs
      | .ok _, .error e => .error e cs := by
  unfold attach
  cases hi : cs.place name with
  | error e => simp [hi]
  | ok i =>
    cases hp : cs.place above with
    | error e => simp [hi, hp]
    | ok parent =>
      by_cases hc : cs.closesCircle i parent display = true <;> simp [hi, hp, hc, rewire, handTo]

theorem run_detach (name above : Text) (cs : Counters) :
    (detach name above).run cs =
      match cs.place name, cs.place above with
      | .ok i, .ok parent =>
        if cs.parentOf i = some parent then .ok () (cs.rewire i none fun _ => .plain) else .ok () cs
      | .error e, _ => .error e cs
      | .ok _, .error e => .error e cs := by
  unfold detach
  cases hi : cs.place name with
  | error e => simp [hi]
  | ok i =>
    cases hp : cs.place above with
    | error e => simp [hi, hp]
    | ok parent =>
      by_cases hc : cs.parentOf i = some parent <;> simp [hi, hp, hc, rewire, handTo]

/-! ## What an operation can do -/

theorem create_cases (name : Text) (parent : Option Text) (initial : Number) (cs : Counters) :
    (∃ e, (create name parent initial).run cs = .error e cs) ∨
      ∃ above, cs.contains name = false ∧ cs.parentPlace parent = .ok above ∧
        (create name parent initial).run cs = .ok cs.size (cs.grow ⟨name, initial, above, [], .plain⟩) := by
  rw [run_create]
  by_cases hc : cs.contains name = true
  · exact .inl ⟨_, if_pos hc⟩
  · rw [if_neg hc]
    cases hp : cs.parentPlace parent with
    | error e => exact .inl ⟨e, rfl⟩
    | ok above => exact .inr ⟨above, Bool.eq_false_iff.2 hc, rfl, rfl⟩

/-- An update that looks up one counter and then changes the counters. -/
theorem cases_of_run_place {u : Update Counters Unit} {name : Text} {changed : Nat → Counters}
    (hrun : u.run cs = match cs.place name with
      | .ok i => .ok () (changed i)
      | .error e => .error e cs) :
    (∃ e, u.run cs = .error e cs) ∨ ∃ i, cs.place name = .ok i ∧ u.run cs = .ok () (changed i) := by
  rw [hrun]
  cases hp : cs.place name with
  | error e => exact .inl ⟨e, rfl⟩
  | ok i => exact .inr ⟨i, rfl, rfl⟩

theorem attach_cases (name above : Text) (display : Bool) (cs : Counters) :
    (∃ e, (attach name above display).run cs = .error e cs) ∨
      ∃ i parent, cs.place name = .ok i ∧ cs.place above = .ok parent ∧ ¬ cs.closesCircle i parent display = true ∧
        (attach name above display).run cs =
          .ok () (cs.rewire i (some parent) fun shown => if display then .behind parent else shown) := by
  rw [run_attach]
  cases hi : cs.place name with
  | error e => exact .inl ⟨e, rfl⟩
  | ok i =>
    cases hp : cs.place above with
    | error e => exact .inl ⟨e, rfl⟩
    | ok parent =>
      by_cases hc : cs.closesCircle i parent display = true
      · exact .inl ⟨_, if_pos hc⟩
      · exact .inr ⟨i, parent, rfl, rfl, hc, if_neg hc⟩

theorem detach_cases (name above : Text) (cs : Counters) :
    (∃ e, (detach name above).run cs = .error e cs) ∨ (detach name above).run cs = .ok () cs ∨
      ∃ i parent, cs.place name = .ok i ∧ cs.place above = .ok parent ∧ cs.parentOf i = some parent ∧
        (detach name above).run cs = .ok () (cs.rewire i none fun _ => .plain) := by
  rw [run_detach]
  cases hi : cs.place name with
  | error e => exact .inl ⟨e, rfl⟩
  | ok i =>
    cases hp : cs.place above with
    | error e => exact .inl ⟨e, rfl⟩
    | ok parent =>
      by_cases hc : cs.parentOf i = some parent
      · exact .inr (.inr ⟨i, parent, rfl, rfl, hc, if_pos hc⟩)
      · exact .inr (.inl (if_neg hc))

end Counters
end DocState
