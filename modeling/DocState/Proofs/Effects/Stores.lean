import DocState.Proofs.Refusal.Stores

/-!
# What updates make of a store

An update, refused or not, leaves the store as it is or makes one change of it: of the counters it makes one of the
three changes, and into a table of flags or lists it puts one entry.

* `Table.AgreeExcept k t t'`: the tables have the same entries but for those of one key.  `Table.agreeExcept_insert`:
  one entry is put in.
* `Counters.after_create`, `Counters.after_of_run_place`, `Counters.after_attach`, `Counters.after_detach`: a counter
  comes, a counter that was looked up changes, a counter is taken to another parent or to none.
* `Flags.after_create`, `Flags.after_set`, `Lists.after_change`, `Lists.after_add`: one flag, or one list, is put in.
-/

namespace DocState
namespace Table

variable {κ α : Type} [DecidableEq κ] {t : Table κ α} {k : κ} {a b : α}

/-- The same entries in the same order, but for those of one key. -/
def AgreeExcept (k : κ) (t t' : Table κ α) : Prop :=
  t'.entries.filter (fun entry => entry.1 ≠ k) = t.entries.filter (fun entry => entry.1 ≠ k)

theorem agreeExcept_insert (t : Table κ α) (k : κ) (a : α) : AgreeExcept k t (t.insert k a) := by
  obtain ⟨es⟩ := t
  show (insert.put k a es).filter _ = es.filter _
  induction es with
  | nil => simp [insert.put]
  | cons e rest ih =>
    obtain ⟨k', b⟩ := e
    by_cases h : k' = k
    · simp [insert.put, h]
    · simpa [insert.put, h] using ih

theorem insert_insert : (t.insert k a).insert k b = t.insert k b := by
  obtain ⟨es⟩ := t
  refine congrArg mk ?_
  show insert.put k b (insert.put k a es) = insert.put k b es
  induction es with
  | nil => simp [insert.put]
  | cons e rest ih => by_cases h : e.1 = k <;> simp [insert.put, h, ih]

/-- A change of a value that is there puts the new value in its place. -/
theorem modify_eq_insert {f : α → α} (h : t.get? k = some a) : t.modify k f = t.insert k (f a) := by
  obtain ⟨es⟩ := t
  refine congrArg mk ?_
  change get?.find k es = some a at h
  show modify.change k f es = insert.put k (f a) es
  induction es with
  | nil => cases h
  | cons e rest ih =>
    obtain ⟨k', b⟩ := e
    by_cases hk : k' = k
    · rw [get?.find, if_pos hk] at h
      cases h
      simp [modify.change, insert.put, hk]
    · rw [get?.find, if_neg hk] at h
      simp [modify.change, insert.put, hk, ih h]

end Table

namespace Counters

variable {cs : Counters} {u : Update Counters Unit}

theorem after_create (name : Text) (parent : Option Text) (initial : Number) (cs : Counters) :
    (create name parent initial).after cs = cs ∨
      ∃ above, (create name parent initial).after cs = cs.grow ⟨name, initial, above, [], .plain⟩ := by
  rcases create_cases name parent initial cs with ⟨e, hrefused⟩ | ⟨above, -, -, hdone⟩
  · exact .inl (Update.after_of_run_error hrefused)
  · exact .inr ⟨above, Update.after_of_run_ok hdone⟩

/-- An update that looks up one counter. -/
theorem after_of_run_place {name : Text} {changed : Nat → Counters}
    (hrun : u.run cs =
      match cs.place name with
      | .ok i => .ok () (changed i)
      | .error e => .error e cs) :
    u.after cs = cs ∨ ∃ i, cs.place name = .ok i ∧ u.after cs = changed i := by
  rcases cases_of_run_place hrun with ⟨e, hrefused⟩ | ⟨i, hi, hdone⟩
  · exact .inl (Update.after_of_run_error hrefused)
  · exact .inr ⟨i, hi, Update.after_of_run_ok hdone⟩

theorem after_attach (name above : Text) (display : Bool) (cs : Counters) :
    (attach name above display).after cs = cs ∨
      ∃ i parent shown, (attach name above display).after cs = cs.rewire i parent shown := by
  rcases attach_cases name above display cs with ⟨e, hrefused⟩ | ⟨i, parent, -, -, -, hdone⟩
  · exact .inl (Update.after_of_run_error hrefused)
  · exact .inr ⟨i, some parent, _, Update.after_of_run_ok hdone⟩

theorem after_detach (name above : Text) (cs : Counters) :
    (detach name above).after cs = cs ∨
      ∃ i parent shown, (detach name above).after cs = cs.rewire i parent shown := by
  rcases detach_cases name above cs with ⟨e, hrefused⟩ | hsame | ⟨i, parent, -, -, -, hdone⟩
  · exact .inl (Update.after_of_run_error hrefused)
  · exact .inl (Update.after_of_run_ok hsame)
  · exact .inr ⟨i, none, _, Update.after_of_run_ok hdone⟩

end Counters

namespace Flags

variable (space : FlagSpace) (name : Text) (fs : Flags)

theorem after_create (strict : Bool) : (create space name strict).after fs = fs ∨
    (create space name strict).after fs = ⟨fs.table.insert (space, name) false⟩ := by
  by_cases hthere : fs.contains space name = true
  · left
    have hrun := run_create space name strict fs
    rw [if_pos hthere] at hrun
    cases strict with
    | true => exact Update.after_of_run_error hrun
    | false => exact Update.after_of_run_ok hrun
  · exact .inr (Update.after_of_run_ok (by rw [run_create, if_neg hthere]))

theorem after_set (value : Bool) : (set space name value).after fs = fs ∨
    (set space name value).after fs = ⟨fs.table.insert (space, name) value⟩ := by
  by_cases hthere : fs.contains space name = true
  · exact .inr (Update.after_of_run_ok (by rw [run_set, if_pos hthere]))
  · exact .inl (Update.after_of_run_error (by rw [run_set, if_neg hthere]))

end Flags

namespace Lists

variable (name : Text) (ls : Lists)

theorem after_change (f : List Text → List Text) :
    (change name f).after ls = ls ∨ ∃ items, (change name f).after ls = ⟨ls.table.insert name items⟩ := by
  by_cases hthere : ls.contains name = true
  · obtain ⟨items, hitems⟩ := Option.isSome_iff_exists.1 hthere
    refine .inr ⟨f items, ?_⟩
    rw [Update.after_of_run_ok (by rw [run_change, if_pos hthere]), Table.modify_eq_insert hitems]
  · exact .inl (Update.after_of_run_error (by rw [run_change, if_neg hthere]))

/-- The creation of a list and the addition to it concern one entry. -/
theorem after_add (item : Text) :
    (create name false >>= fun _ => add name item).after ls = ls ∨
      ∃ items, (create name false >>= fun _ => add name item).after ls = ⟨ls.table.insert name items⟩ := by
  have hafter : ∀ {ls'}, (create name false).run ls = .ok () ls' →
      (create name false >>= fun _ => add name item).after ls = (add name item).after ls' := by
    intro ls' hcreate
    rw [Update.after, Update.outcome, EStateM.run_bind, hcreate]
    rfl
  by_cases hthere : ls.contains name = true
  · have hcreate : (create name false).run ls = .ok () ls := by
      rw [run_create, if_pos hthere]
      rfl
    rw [hafter hcreate]
    exact after_change name ls _
  · have hcreate : (create name false).run ls = .ok () ⟨ls.table.insert name []⟩ := by
      rw [run_create, if_neg hthere]
    rw [hafter hcreate]
    refine .inr ?_
    obtain hsame | ⟨items, hitems⟩ := after_change name ⟨ls.table.insert name []⟩
      (fun items => if item.isEmpty then items else items ++ [item])
    · exact ⟨[], hsame⟩
    · exact ⟨items, hitems.trans (congrArg Lists.mk Table.insert_insert)⟩

end Lists
end DocState
