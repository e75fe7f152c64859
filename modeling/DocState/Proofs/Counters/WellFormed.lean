import Mathlib.Data.List.Nodup
import DocState.Proofs.Counters.Changes
import DocState.Proofs.Links

/-!
# The links of counters stay in order

* `Counters.Operation`, `Counters.afterAll`, `Counters.Reachable`: sequences of operations on counters, accepted
  or refused, and the counters that they lead to.
* `Counters.WellFormed`: names and places belong together, parents and children are the two sides of one link,
  and neither the parents nor the prefixes run in a circle.
* `WellFormed.grow`, `WellFormed.rewire`, `WellFormed.revalue`: the three kinds of changes keep this, so every
  operation does (`WellFormed.after`), and so does every sequence of them (`Reachable.wellFormed`).
-/

open Relation

namespace DocState
namespace Counters

/-! ## Sequences of operations -/

/-- An operation with its arguments. -/
inductive Operation
  | create (name : Text) (parent : Option Text) (initial : Number)
  | set (name : Text) (value : Number)
  | add (name : Text) (delta : Number)
  | step (name : Text)
  | attach (name above : Text) (display : Bool)
  | detach (name above : Text)
  | reset
deriving DecidableEq, Repr

/-- The counters after an operation, accepted or refused. -/
def Operation.after : Operation → Counters → Counters
  | create name parent initial => (Counters.create name parent initial).after
  | set name value => (Counters.set name value).after
  | add name delta => (Counters.add name delta).after
  | step name => (Counters.step name).after
  | attach name above display => (Counters.attach name above display).after
  | detach name above => (Counters.detach name above).after
  | reset => fun _ => empty

/-- The counters after operations one after the other. -/
def afterAll (cs : Counters) (ops : List Operation) : Counters := ops.foldl (fun cs op => op.after cs) cs

/-- Counters that operations lead to from the beginning of a document. -/
def Reachable (cs : Counters) : Prop := ∃ ops, empty.afterAll ops = cs

/-! ## Operations on values -/

/-- Whether an operation concerns values only. -/
def Operation.changesValues : Operation → Bool
  | set _ _ | add _ _ | step _ => true
  | create _ _ _ | attach _ _ _ | detach _ _ | reset => false

variable {cs : Counters}

/-- An update that looks up one counter and then changes values. -/
theorem exists_revalue_of_run_place {u : Update Counters Unit} {name : Text} {change : Nat → Nat → Number → Number}
    (hrun : u.run cs = match cs.place name with
      | .ok i => .ok () (cs.revalue (change i))
      | .error e => .error e cs) : ∃ f, u.after cs = cs.revalue f := by
  rcases cases_of_run_place hrun with ⟨e, hrefused⟩ | ⟨i, -, hdone⟩
  · exact ⟨_, (Update.after_of_run_error hrefused).trans revalue_id.symm⟩
  · exact ⟨_, Update.after_of_run_ok hdone⟩

theorem exists_after_eq_revalue {op : Operation} (hop : op.changesValues = true) (cs : Counters) :
    ∃ f, op.after cs = cs.revalue f := by
  cases op with
  | set name value => exact exists_revalue_of_run_place (run_set name value cs)
  | add name delta => exact exists_revalue_of_run_place (run_add name delta cs)
  | step name =>
    choose change hchange using fun i => exists_stepAt_eq_revalue cs.size i cs
    have hrun := run_step name cs
    simp only [hchange] at hrun
    exact exists_revalue_of_run_place hrun
  | create name parent initial => cases hop
  | attach name above display => cases hop
  | detach name above => cases hop
  | reset => cases hop

theorem exists_afterAll_eq_revalue {ops : List Operation} (hops : ∀ op ∈ ops, op.changesValues = true)
    (cs : Counters) : ∃ f, cs.afterAll ops = cs.revalue f := by
  induction ops generalizing cs with
  | nil => exact ⟨_, revalue_id.symm⟩
  | cons op ops ih =>
    obtain ⟨hop, hothers⟩ := List.forall_mem_cons.1 hops
    obtain ⟨f, hf⟩ := exists_after_eq_revalue hop cs
    obtain ⟨g, hg⟩ := ih hothers (op.after cs)
    refine ⟨fun i v => g i (f i v), ?_⟩
    rw [← revalue_revalue, ← hf, ← hg]
    rfl

/-! ## The links after a change -/

theorem getElem?_names (i : Nat) : cs.names[i]? = cs.arena[i]?.map (·.name) := by
  simp [names]

theorem parentOf_of_getElem? {i : Nat} {c : Counter} (h : cs.arena[i]? = some c) : cs.parentOf i = c.parent := by
  simp [parentOf, h]

theorem childrenOf_of_getElem? {i : Nat} {c : Counter} (h : cs.arena[i]? = some c) :
    cs.childrenOf i = c.children := by
  simp [childrenOf, h]

theorem prefixOf_of_getElem? {i : Nat} {c : Counter} (h : cs.arena[i]? = some c) :
    cs.prefixOf i = c.display.prefix? := by
  simp [prefixOf, h]

theorem lt_size_of_getElem? {i : Nat} {c : Counter} (h : cs.arena[i]? = some c) : i < cs.size :=
  (List.getElem?_eq_some_iff.1 h).1

theorem exists_getElem?_of_lt {i : Nat} (h : i < cs.size) : ∃ c, cs.arena[i]? = some c :=
  ⟨_, List.getElem?_eq_getElem h⟩

theorem getElem?_eq_none_of_le {i : Nat} (h : cs.size ≤ i) : cs.arena[i]? = none := List.getElem?_eq_none h

/-- The next place has no parent yet. -/
theorem parentOf_size (cs : Counters) : cs.parentOf cs.size = none := by
  rw [parentOf, getElem?_eq_none_of_le (Nat.le_refl _)]
  rfl

theorem prefixOf_size (cs : Counters) : cs.prefixOf cs.size = none := by
  rw [prefixOf, getElem?_eq_none_of_le (Nat.le_refl _)]
  rfl

@[simp] theorem names_revalue (f : Nat → Number → Number) : (cs.revalue f).names = cs.names := by
  refine List.ext_getElem? fun i => ?_
  simp [getElem?_names, getElem?_revalue, Function.comp_def]

@[simp] theorem parentOf_revalue (f : Nat → Number → Number) : (cs.revalue f).parentOf = cs.parentOf := by
  funext i
  rw [parentOf, getElem?_revalue, Option.bind_map]
  rfl

@[simp] theorem childrenOf_revalue (f : Nat → Number → Number) : (cs.revalue f).childrenOf = cs.childrenOf := by
  funext i
  simp [childrenOf, getElem?_revalue, Function.comp_def]

@[simp] theorem prefixOf_revalue (f : Nat → Number → Number) : (cs.revalue f).prefixOf = cs.prefixOf := by
  funext i
  rw [prefixOf, getElem?_revalue, Option.bind_map]
  rfl

section Rewire

variable {i : Nat} {parent : Option Nat} {display : Display → Display}

@[simp] theorem names_rewire : (cs.rewire i parent display).names = cs.names := by
  refine List.ext_getElem? fun j => ?_
  simp [getElem?_names, getElem?_rewire, Function.comp_def]

@[simp] theorem size_rewire : (cs.rewire i parent display).size = cs.size := by
  have h := congrArg List.length (@names_rewire cs i parent display)
  simpa [names, size] using h

theorem parentOf_rewire {c : Counter} (hi : cs.arena[i]? = some c) :
    (cs.rewire i parent display).parentOf = Function.update cs.parentOf i parent := by
  funext j
  by_cases h : j = i
  · subst h
    simp [parentOf, getElem?_rewire, hi]
  · simp only [parentOf, getElem?_rewire, Function.update_of_ne h, if_neg h]
    cases cs.arena[j]? <;> rfl

theorem prefixOf_rewire {c : Counter} (hi : cs.arena[i]? = some c) :
    (cs.rewire i parent display).prefixOf = Function.update cs.prefixOf i (display c.display).prefix? := by
  funext j
  by_cases h : j = i
  · subst h
    simp [prefixOf, getElem?_rewire, hi]
  · simp only [prefixOf, getElem?_rewire, Function.update_of_ne h, if_neg h]
    cases cs.arena[j]? <;> rfl

theorem childrenOf_rewire (hp : ∀ p, parent = some p → p < cs.size) (j : Nat) :
    (cs.rewire i parent display).childrenOf j =
      (if cs.parentOf i = some j then (cs.childrenOf j).erase i else cs.childrenOf j) ++
        if parent = some j then [i] else [] := by
  rcases Nat.lt_or_ge j cs.size with hj | hj
  · obtain ⟨c, hc⟩ := exists_getElem?_of_lt hj
    rw [childrenOf_of_getElem? hc]
    simp [childrenOf, getElem?_rewire, hc]
  · have hnone := getElem?_eq_none_of_le hj
    have hparent : parent ≠ some j := fun h => absurd (hp j h) (by omega)
    simp [childrenOf, getElem?_rewire, hnone, hparent]

end Rewire

section Grow

variable {counter : Counter}

@[simp] theorem names_grow : (cs.grow counter).names = cs.names ++ [counter.name] := by
  refine List.ext_getElem? fun j => ?_
  have hpush : (cs.push counter).names = cs.names ++ [counter.name] := by simp [names, push]
  rw [← hpush, getElem?_names, getElem?_names, getElem?_grow, getElem?_push, Option.map_map]
  rfl

@[simp] theorem size_grow : (cs.grow counter).size = cs.size + 1 := by
  have h := congrArg List.length (@names_grow cs counter)
  simpa [names, size] using h

theorem parentOf_grow : (cs.grow counter).parentOf = Function.update cs.parentOf cs.size counter.parent := by
  funext j
  by_cases h : j = cs.size
  · subst h
    simp [parentOf, getElem?_grow]
  · simp only [parentOf, getElem?_grow, Function.update_of_ne h, if_neg h]
    cases cs.arena[j]? <;> rfl

theorem prefixOf_grow :
    (cs.grow counter).prefixOf = Function.update cs.prefixOf cs.size counter.display.prefix? := by
  funext j
  by_cases h : j = cs.size
  · subst h
    simp [prefixOf, getElem?_grow]
  · simp only [prefixOf, getElem?_grow, Function.update_of_ne h, if_neg h]
    cases cs.arena[j]? <;> rfl

theorem childrenOf_grow (hc : counter.children = []) (hp : ∀ p, counter.parent = some p → p < cs.size)
    (j : Nat) :
    (cs.grow counter).childrenOf j = cs.childrenOf j ++ if counter.parent = some j then [cs.size] else [] := by
  by_cases h : j = cs.size
  · subst h
    have hparent : counter.parent ≠ some cs.size := fun h => absurd (hp _ h) (Nat.lt_irrefl _)
    simp [childrenOf, getElem?_grow, getElem?_eq_none_of_le, hc, hparent]
  · by_cases hj : counter.parent = some j
    · obtain ⟨c, hcj⟩ := exists_getElem?_of_lt (hp j hj)
      simp [childrenOf, getElem?_grow, h, hj, hcj]
    · cases hcj : cs.arena[j]? <;> simp [childrenOf, getElem?_grow, h, hj, hcj]

end Grow

/-! ## The invariant -/

/-- The order that operations on counters keep. -/
structure WellFormed (cs : Counters) : Prop where
  /-- A name leads to the place where a counter of this name stands. -/
  place_iff : ∀ name i, cs.places.get? name = some i ↔ cs.names[i]? = some name
  /-- Parents and children are the two sides of one link. -/
  mem_childrenOf_iff : ∀ i p, i ∈ cs.childrenOf p ↔ cs.parentOf i = some p
  nodup_childrenOf : ∀ p, (cs.childrenOf p).Nodup
  parents_within : Link.Within cs.size cs.parentOf
  prefixes_within : Link.Within cs.size cs.prefixOf
  parents_acyclic : Link.Acyclic cs.parentOf
  prefixes_acyclic : Link.Acyclic cs.prefixOf

theorem wellFormed_empty : WellFormed empty where
  place_iff name i := by simp [empty, names, Table.get?_empty]
  mem_childrenOf_iff i p := by simp [empty, childrenOf, parentOf]
  nodup_childrenOf p := by simp [empty, childrenOf]
  parents_within a b h := by simp [empty, parentOf] at h
  prefixes_within a b h := by simp [empty, prefixOf] at h
  parents_acyclic a h := by
    obtain ⟨b, hab, -⟩ := TransGen.head'_iff.1 h
    simp [Link.Leads, empty, parentOf] at hab
  prefixes_acyclic a h := by
    obtain ⟨b, hab, -⟩ := TransGen.head'_iff.1 h
    simp [Link.Leads, empty, prefixOf] at hab

namespace WellFormed

theorem place_eq_ok_iff (h : WellFormed cs) {name : Text} {i : Nat} :
    cs.place name = .ok i ↔ cs.names[i]? = some name := by
  rw [← h.place_iff]
  unfold place
  cases cs.places.get? name <;> simp

theorem contains_iff (h : WellFormed cs) {name : Text} : cs.contains name = true ↔ name ∈ cs.names := by
  rw [contains, Table.contains_eq_isSome, Option.isSome_iff_exists, List.mem_iff_getElem?]
  exact exists_congr fun i => h.place_iff name i

theorem lt_size_of_place (h : WellFormed cs) {name : Text} {i : Nat} (hi : cs.place name = .ok i) :
    i < cs.size := by
  obtain ⟨hlt, -⟩ := List.getElem?_eq_some_iff.1 (h.place_eq_ok_iff.1 hi)
  simpa [names, size] using hlt

theorem names_nodup (h : WellFormed cs) : cs.names.Nodup := by
  rw [List.nodup_iff_getElem?_ne_getElem?]
  intro i j hij hj heq
  have hjname := List.getElem?_eq_getElem hj
  have hi := (h.place_iff _ _).2 (heq.trans hjname)
  have hplaces := hi.symm.trans ((h.place_iff _ _).2 hjname)
  exact Nat.ne_of_lt hij (Option.some.inj hplaces)

theorem revalue (h : WellFormed cs) (f : Nat → Number → Number) : WellFormed (cs.revalue f) where
  place_iff := by simpa using h.place_iff
  mem_childrenOf_iff := by simpa using h.mem_childrenOf_iff
  nodup_childrenOf := by simpa using h.nodup_childrenOf
  parents_within := by simpa using h.parents_within
  prefixes_within := by simpa using h.prefixes_within
  parents_acyclic := by simpa using h.parents_acyclic
  prefixes_acyclic := by simpa using h.prefixes_acyclic

section Grow

variable {counter : Counter}

theorem place_iff_grow (h : WellFormed cs) (hnew : counter.name ∉ cs.names) (name : Text) (i : Nat) :
    (cs.grow counter).places.get? name = some i ↔ (cs.grow counter).names[i]? = some name := by
  have hsize : cs.names.length = cs.size := by simp [names, size]
  rw [places_grow, Table.get?_insert, names_grow]
  by_cases hn : counter.name = name
  · subst hn
    rw [if_pos rfl, Option.some.injEq]
    constructor
    · rintro rfl
      rw [← hsize, List.getElem?_concat_length]
    · intro hi
      rcases Nat.lt_trichotomy i cs.names.length with hlt | heq | hgt
      · rw [List.getElem?_append_left hlt] at hi
        exact absurd (List.mem_of_getElem? hi) hnew
      · rw [heq, hsize]
      · rw [List.getElem?_eq_none (by simp; omega)] at hi
        cases hi
  · rw [if_neg hn, h.place_iff]
    rcases Nat.lt_or_ge i cs.names.length with hlt | hge
    · rw [List.getElem?_append_left hlt]
    · rw [List.getElem?_append_right hge, List.getElem?_eq_none hge]
      constructor
      · intro hi
        cases hi
      · intro hi
        exact absurd (List.mem_singleton.1 (List.mem_of_getElem? hi)).symm hn

/-- No counter resets the next place yet. -/
theorem size_not_mem_childrenOf (h : WellFormed cs) (p : Nat) : cs.size ∉ cs.childrenOf p := by
  rw [h.mem_childrenOf_iff, parentOf_size]
  intro hnone
  cases hnone

theorem mem_childrenOf_iff_grow (h : WellFormed cs) (hp : ∀ p, counter.parent = some p → p < cs.size)
    (hchildren : counter.children = []) (i p : Nat) :
    i ∈ (cs.grow counter).childrenOf p ↔ (cs.grow counter).parentOf i = some p := by
  rw [childrenOf_grow hchildren hp, parentOf_grow, List.mem_append, h.mem_childrenOf_iff]
  by_cases hi : i = cs.size
  · subst hi
    rw [Function.update_self, parentOf_size]
    by_cases hpar : counter.parent = some p <;> simp [hpar]
  · rw [Function.update_of_ne hi]
    by_cases hpar : counter.parent = some p <;> simp [hpar, hi]

theorem nodup_childrenOf_grow (h : WellFormed cs) (hp : ∀ p, counter.parent = some p → p < cs.size)
    (hchildren : counter.children = []) (p : Nat) : ((cs.grow counter).childrenOf p).Nodup := by
  rw [childrenOf_grow hchildren hp]
  by_cases hpar : counter.parent = some p
  · rw [if_pos hpar]
    refine (h.nodup_childrenOf p).append (List.nodup_singleton _) ?_
    simpa using h.size_not_mem_childrenOf p
  · simpa [hpar] using h.nodup_childrenOf p

theorem acyclic_parentOf_grow (h : WellFormed cs) (hp : ∀ p, counter.parent = some p → p < cs.size) :
    Link.Acyclic (cs.grow counter).parentOf := by
  rw [parentOf_grow]
  cases hpar : counter.parent with
  | none => exact h.parents_acyclic.update_none _
  | some above =>
    refine h.parents_acyclic.update_some fun hreach => ?_
    exact Nat.lt_irrefl _ (h.parents_within.lt_of_reaches (hp above hpar) hreach)

theorem grow (h : WellFormed cs) (hname : cs.contains counter.name = false)
    (hp : ∀ p, counter.parent = some p → p < cs.size) (hchildren : counter.children = [])
    (hdisplay : counter.display = .plain) : WellFormed (cs.grow counter) := by
  have hnew : counter.name ∉ cs.names := by
    rw [← h.contains_iff, hname]
    decide
  have hbehind : (cs.grow counter).prefixOf = cs.prefixOf := by
    rw [prefixOf_grow, hdisplay, Display.prefix?, ← prefixOf_size, Function.update_eq_self]
  constructor
  case place_iff => exact h.place_iff_grow hnew
  case mem_childrenOf_iff => exact h.mem_childrenOf_iff_grow hp hchildren
  case nodup_childrenOf => exact h.nodup_childrenOf_grow hp hchildren
  case parents_within =>
    rw [parentOf_grow, size_grow]
    refine (h.parents_within.mono (Nat.le_succ _)).update (Nat.lt_succ_self _) fun p hpar => ?_
    exact Nat.lt_succ_of_lt (hp p hpar)
  case prefixes_within =>
    rw [hbehind, size_grow]
    exact h.prefixes_within.mono (Nat.le_succ _)
  case parents_acyclic => exact h.acyclic_parentOf_grow hp
  case prefixes_acyclic =>
    rw [hbehind]
    exact h.prefixes_acyclic

end Grow

section Rewire

variable {i : Nat} {parent : Option Nat} {display : Display → Display}

/-- Among the other children, a counter is nowhere once its parent has dropped it. -/
theorem not_mem_dropped (h : WellFormed cs) (i p : Nat) :
    i ∉ if cs.parentOf i = some p then (cs.childrenOf p).erase i else cs.childrenOf p := by
  split
  · exact (h.nodup_childrenOf p).not_mem_erase
  · rwa [h.mem_childrenOf_iff]

theorem mem_childrenOf_iff_rewire (h : WellFormed cs) {c : Counter} (hi : cs.arena[i]? = some c)
    (hp : ∀ p, parent = some p → p < cs.size) (j p : Nat) :
    j ∈ (cs.rewire i parent display).childrenOf p ↔ (cs.rewire i parent display).parentOf j = some p := by
  rw [childrenOf_rewire hp, parentOf_rewire hi, List.mem_append]
  by_cases hj : j = i
  · subst hj
    rw [Function.update_self]
    simp only [h.not_mem_dropped j p, false_or]
    by_cases hpp : parent = some p <;> simp [hpp]
  · have hnew : j ∉ if parent = some p then [i] else [] := by split <;> simp [hj]
    rw [Function.update_of_ne hj, ← h.mem_childrenOf_iff j p]
    simp only [hnew, or_false]
    split
    · exact List.mem_erase_of_ne hj
    · rfl

theorem nodup_childrenOf_rewire (h : WellFormed cs) (hp : ∀ p, parent = some p → p < cs.size) (p : Nat) :
    ((cs.rewire i parent display).childrenOf p).Nodup := by
  rw [childrenOf_rewire hp]
  refine List.Nodup.append ?_ ?_ ?_
  · split
    · exact (h.nodup_childrenOf p).erase i
    · exact h.nodup_childrenOf p
  · split <;> simp
  · have hdrop := h.not_mem_dropped i p
    by_cases hpp : parent = some p
    · simpa [hpp] using hdrop
    · simp [hpp]

theorem rewire (h : WellFormed cs) {c : Counter} (hi : cs.arena[i]? = some c)
    (hp : ∀ p, parent = some p → p < cs.size) (hd : ∀ p, (display c.display).prefix? = some p → p < cs.size)
    (hpar : Link.Acyclic (Function.update cs.parentOf i parent))
    (hpre : Link.Acyclic (Function.update cs.prefixOf i (display c.display).prefix?)) :
    WellFormed (cs.rewire i parent display) := by
  have hlt := lt_size_of_getElem? hi
  constructor
  case place_iff => simpa using h.place_iff
  case mem_childrenOf_iff => exact h.mem_childrenOf_iff_rewire hi hp
  case nodup_childrenOf => exact h.nodup_childrenOf_rewire hp
  case parents_within =>
    rw [parentOf_rewire hi, size_rewire]
    exact h.parents_within.update hlt hp
  case prefixes_within =>
    rw [prefixOf_rewire hi, size_rewire]
    exact h.prefixes_within.update hlt hd
  case parents_acyclic => rwa [parentOf_rewire hi]
  case prefixes_acyclic => rwa [prefixOf_rewire hi]

end Rewire

/-! ## Every operation keeps it -/

theorem mem_ancestry_iff (h : WellFormed cs) {i : Nat} (hi : i < cs.size) (a : Nat) :
    a ∈ cs.ancestry i ↔ ReflTransGen (Link.Leads cs.parentOf) i a :=
  Link.mem_chain_iff h.parents_acyclic h.parents_within hi a

theorem mem_prefixes_iff (h : WellFormed cs) {i : Nat} (hi : i < cs.size) (a : Nat) :
    a ∈ cs.prefixes i ↔ ReflTransGen (Link.Leads cs.prefixOf) i a :=
  Link.mem_chain_iff h.prefixes_acyclic h.prefixes_within hi a

theorem closesCircle_iff (h : WellFormed cs) {i above : Nat} (hlt : above < cs.size) (display : Bool) :
    cs.closesCircle i above display = true ↔
      ReflTransGen (Link.Leads cs.parentOf) above i ∨
        (display = true ∧ ReflTransGen (Link.Leads cs.prefixOf) above i) := by
  rw [closesCircle, Bool.or_eq_true, Bool.and_eq_true, List.contains_iff_mem, List.contains_iff_mem,
    h.mem_ancestry_iff hlt, h.mem_prefixes_iff hlt]

/-- A parent that is found by name has a place. -/
theorem lt_size_of_parentPlace (h : WellFormed cs) {parent : Option Text} {above : Option Nat}
    (hp : cs.parentPlace parent = .ok above) (p : Nat) (hpar : above = some p) : p < cs.size := by
  subst hpar
  cases parent with
  | none => simp [parentPlace] at hp
  | some name =>
    cases hplace : cs.place name with
    | error e => simp [parentPlace, hplace] at hp
    | ok i =>
      obtain rfl : i = p := by simpa [parentPlace, hplace] using hp
      exact h.lt_size_of_place hplace

theorem after_create (h : WellFormed cs) (name : Text) (parent : Option Text) (initial : Number) :
    WellFormed ((create name parent initial).after cs) := by
  rcases create_cases name parent initial cs with ⟨e, hrefused⟩ | ⟨above, hc, hp, hdone⟩
  · rwa [Update.after_of_run_error hrefused]
  · rw [Update.after_of_run_ok hdone]
    exact h.grow hc (h.lt_size_of_parentPlace hp) rfl rfl

/-- A counter may be attached to another one if that closes no circle. -/
theorem rewire_some (h : WellFormed cs) {i parent : Nat} {display : Bool} (hi : i < cs.size) (hp : parent < cs.size)
    (hc : ¬ cs.closesCircle i parent display = true) :
    WellFormed (cs.rewire i (some parent) fun shown => if display then .behind parent else shown) := by
  obtain ⟨c, hget⟩ := exists_getElem?_of_lt hi
  rw [h.closesCircle_iff hp, not_or, not_and] at hc
  obtain ⟨hparents, hprefixes⟩ := hc
  refine h.rewire hget (fun p hpp => ?_) (fun p hpp => ?_) (h.parents_acyclic.update_some hparents) ?_
  · cases hpp
    exact hp
  · cases display with
    | false => exact (h.prefixes_within i p (by rwa [prefixOf_of_getElem? hget])).2
    | true =>
      cases hpp
      exact hp
  · cases display with
    | false =>
      have hsame : Function.update cs.prefixOf i c.display.prefix? = cs.prefixOf := by
        rw [← prefixOf_of_getElem? hget, Function.update_eq_self]
      simpa [hsame] using h.prefixes_acyclic
    | true => exact h.prefixes_acyclic.update_some (hprefixes rfl)

/-- A counter may always be freed. -/
theorem rewire_none (h : WellFormed cs) {i : Nat} (hi : i < cs.size) :
    WellFormed (cs.rewire i none fun _ => .plain) := by
  obtain ⟨c, hget⟩ := exists_getElem?_of_lt hi
  refine h.rewire hget (fun p hpp => ?_) (fun p hpp => ?_) (h.parents_acyclic.update_none i)
    (h.prefixes_acyclic.update_none i)
  · cases hpp
  · cases hpp

theorem after_attach (h : WellFormed cs) (name above : Text) (display : Bool) :
    WellFormed ((attach name above display).after cs) := by
  rcases attach_cases name above display cs with ⟨e, hrefused⟩ | ⟨i, parent, hi, hp, hc, hdone⟩
  · rwa [Update.after_of_run_error hrefused]
  · rw [Update.after_of_run_ok hdone]
    exact h.rewire_some (h.lt_size_of_place hi) (h.lt_size_of_place hp) hc

theorem after_detach (h : WellFormed cs) (name above : Text) : WellFormed ((detach name above).after cs) := by
  rcases detach_cases name above cs with ⟨e, hrefused⟩ | hsame | ⟨i, parent, hi, -, -, hdone⟩
  · rwa [Update.after_of_run_error hrefused]
  · rwa [Update.after_of_run_ok hsame]
  · rw [Update.after_of_run_ok hdone]
    exact h.rewire_none (h.lt_size_of_place hi)

theorem after_of_changesValues (h : WellFormed cs) {op : Operation} (hop : op.changesValues = true) :
    WellFormed (op.after cs) := by
  obtain ⟨f, hf⟩ := exists_after_eq_revalue hop cs
  rw [hf]
  exact h.revalue f

theorem after (h : WellFormed cs) (op : Operation) : WellFormed (op.after cs) := by
  cases op with
  | create name parent initial => exact h.after_create name parent initial
  | set name value => exact h.after_of_changesValues rfl
  | add name delta => exact h.after_of_changesValues rfl
  | step name => exact h.after_of_changesValues rfl
  | attach name above display => exact h.after_attach name above display
  | detach name above => exact h.after_detach name above
  | reset => exact wellFormed_empty

end WellFormed

theorem WellFormed.afterAll (h : WellFormed cs) (ops : List Operation) : WellFormed (cs.afterAll ops) := by
  induction ops generalizing cs with
  | nil => exact h
  | cons op ops ih => exact ih (h.after op)

theorem Reachable.wellFormed (h : Reachable cs) : WellFormed cs := by
  obtain ⟨ops, rfl⟩ := h
  exact wellFormed_empty.afterAll ops

end Counters
end DocState
