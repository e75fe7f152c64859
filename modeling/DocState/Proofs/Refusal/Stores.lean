import DocState.Flags
import DocState.Lists
import DocState.Proofs.Counters.Changes

/-!
# Refused updates leave no trace

* `Update.Atomic`: an update that leaves the store as it was if it is refused.
* `Update.Total`: an update that is never refused.
* `Counters.atomic_create` and so on, `Flags.atomic_create`, `Flags.atomic_set`, `Lists.atomic_create`,
  `Lists.atomic_change`, `Lists.atomic_addSeparated`: the updates of the three stores are atomic.
* `Lists.total_create_add`: an item can always be added to a list that has just been created.
-/

namespace DocState
namespace Update

variable {σ α β : Type}

/-- If the update is refused, the store is as it was. -/
def Atomic (u : Update σ α) : Prop := ∀ s e s', u.run s = .error e s' → s' = s

/-- The update is never refused. -/
def Total (u : Update σ α) : Prop := ∀ s, ∃ a s', u.run s = .ok a s'

theorem Total.atomic {u : Update σ α} (h : u.Total) : u.Atomic := by
  intro s e s' herror
  obtain ⟨a, s'', hok⟩ := h s
  rw [hok] at herror
  cases herror

/-- A result that is asked for before anything changes. -/
theorem Atomic.check_bind {x : Except Error α} {f : α → Update σ β} (hf : ∀ a, (f a).Atomic) :
    (ofExcept x >>= f).Atomic := by
  cases x with
  | ok a => exact hf a
  | error e =>
    intro s e' s' h
    rw [EStateM.run_bind, run_ofExcept_error] at h
    cases h
    rfl

end Update

/-! ## Counters -/

namespace Counters

theorem atomic_create (name : Text) (parent : Option Text) (initial : Number) :
    (create name parent initial).Atomic := by
  intro cs e cs' h
  rcases create_cases name parent initial cs with ⟨e', hrefused⟩ | ⟨above, -, -, hdone⟩
  · cases hrefused.symm.trans h
    rfl
  · cases hdone.symm.trans h

/-- What is looked up by name and then changed is not changed if it is not there. -/
theorem atomic_of_run_place {u : Update Counters Unit} {name : Text} {change : Nat → Counters → Counters}
    (h : ∀ cs, u.run cs =
      match cs.place name with
      | .ok i => .ok () (change i cs)
      | .error e => .error e cs) : u.Atomic := by
  intro cs e cs' hrun
  rcases cases_of_run_place (h cs) with ⟨e', hrefused⟩ | ⟨i, -, hdone⟩
  · cases hrefused.symm.trans hrun
    rfl
  · cases hdone.symm.trans hrun

theorem atomic_set (name : Text) (value : Number) : (set name value).Atomic :=
  atomic_of_run_place (run_set name value)

theorem atomic_add (name : Text) (delta : Number) : (add name delta).Atomic :=
  atomic_of_run_place (run_add name delta)

theorem atomic_step (name : Text) : (step name).Atomic :=
  atomic_of_run_place (run_step name)

theorem atomic_attach (name above : Text) (display : Bool) : (attach name above display).Atomic := by
  intro cs e cs' h
  rcases attach_cases name above display cs with ⟨e', hrefused⟩ | ⟨i, parent, -, -, -, hdone⟩
  · cases hrefused.symm.trans h
    rfl
  · cases hdone.symm.trans h

theorem atomic_detach (name above : Text) : (detach name above).Atomic := by
  intro cs e cs' h
  rcases detach_cases name above cs with ⟨e', hrefused⟩ | hsame | ⟨i, parent, -, -, -, hdone⟩
  · cases hrefused.symm.trans h
    rfl
  · cases hsame.symm.trans h
  · cases hdone.symm.trans h

end Counters

/-! ## Flags -/

namespace Flags

theorem run_create (space : FlagSpace) (name : Text) (strict : Bool) (fs : Flags) :
    (create space name strict).run fs =
      if fs.contains space name then
        if strict then .error (.duplicateFlag space name) fs else .ok () fs
      else .ok () ⟨fs.table.insert (space, name) false⟩ := by
  unfold create
  by_cases hc : fs.contains space name = true
  · cases strict <;> simp [hc]
  · simp [hc]

theorem run_set (space : FlagSpace) (name : Text) (value : Bool) (fs : Flags) :
    (set space name value).run fs =
      if fs.contains space name then .ok () ⟨fs.table.insert (space, name) value⟩
      else .error (.undefinedFlag space name) fs := by
  unfold set
  by_cases hc : fs.contains space name = true <;> simp [hc]

theorem atomic_create (space : FlagSpace) (name : Text) (strict : Bool) : (create space name strict).Atomic := by
  intro fs e fs' h
  rw [run_create] at h
  split at h
  · split at h
    · cases h
      rfl
    · cases h
  · cases h

theorem atomic_set (space : FlagSpace) (name : Text) (value : Bool) : (set space name value).Atomic := by
  intro fs e fs' h
  rw [run_set] at h
  split at h
  · cases h
  · cases h
    rfl

end Flags

/-! ## Lists -/

namespace Lists

theorem run_create (name : Text) (strict : Bool) (ls : Lists) :
    (create name strict).run ls =
      if ls.contains name then
        if strict then .error (.duplicateList name) ls else .ok () ls
      else .ok () ⟨ls.table.insert name []⟩ := by
  unfold create
  by_cases hc : ls.contains name = true
  · cases strict <;> simp [hc]
  · simp [hc]

theorem run_change (name : Text) (f : List Text → List Text) (ls : Lists) :
    (change name f).run ls =
      if ls.contains name then .ok () ⟨ls.table.modify name f⟩ else .error (.undefinedList name) ls := by
  unfold change
  by_cases hc : ls.contains name = true <;> simp [hc]

theorem atomic_create (name : Text) (strict : Bool) : (create name strict).Atomic := by
  intro ls e ls' h
  rw [run_create] at h
  split at h
  · split at h
    · cases h
      rfl
    · cases h
  · cases h

theorem atomic_change (name : Text) (f : List Text → List Text) : (change name f).Atomic := by
  intro ls e ls' h
  rw [run_change] at h
  split at h
  · cases h
  · cases h
    rfl

theorem atomic_add (name item : Text) : (add name item).Atomic := atomic_change name _

theorem atomic_addSeparated (name text separator : Text) : (addSeparated name text separator).Atomic :=
  Update.Atomic.check_bind fun _ => atomic_change name _

theorem atomic_remove (name item : Text) : (remove name item).Atomic := atomic_change name _

/-- After a creation that tolerates the list, the list is there. -/
theorem exists_run_create (name : Text) (ls : Lists) :
    ∃ ls', (create name false).run ls = .ok () ls' ∧ ls'.contains name = true := by
  by_cases hc : ls.contains name = true
  · exact ⟨ls, by rw [run_create, if_pos hc]; rfl, hc⟩
  · refine ⟨⟨ls.table.insert name []⟩, by rw [run_create, if_neg hc], ?_⟩
    rw [contains, Table.contains, Table.get?_insert, if_pos rfl]
    rfl

theorem total_create_add (name item : Text) : (create name false >>= fun _ => add name item).Total := by
  intro ls
  obtain ⟨ls', hcreate, hthere⟩ := exists_run_create name ls
  refine ⟨(), ⟨ls'.table.modify name fun items => if item.isEmpty then items else items ++ [item]⟩, ?_⟩
  rw [EStateM.run_bind, hcreate]
  show (add name item).run ls' = _
  rw [add, run_change, if_pos hthere]

end Lists
end DocState
