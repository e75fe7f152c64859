import DocState.Error

/-!
# Updates of a store

An update reads a store, changes it, and may be refused at any step. What it has changed until then stays
changed, so an update that is to leave no trace when it is refused has to check first and change last.

* `Update`: from a store to a result and the store after it.
* `Update.ofExcept`: a step that only answers or refuses.
* `Update.outcome`, `Update.after`: the result with the store after it, and that store alone.
-/

namespace DocState

/-- A change of a store `σ` that answers with an `α` or is refused. -/
abbrev Update (σ α : Type) := EStateM Error σ α

namespace Update

variable {σ α : Type}

/-- A result that is known without a change. -/
def ofExcept : Except Error α → Update σ α
  | .ok a => pure a
  | .error e => throw e

/-- The result, and the store after it. -/
def outcome (u : Update σ α) (s : σ) : Except Error α × σ :=
  match u.run s with
  | .ok a s' => (.ok a, s')
  | .error e s' => (.error e, s')

/-- The store after an update, refused or not. -/
def after (u : Update σ α) (s : σ) : σ := (u.outcome s).2

@[simp] theorem run_ofExcept_ok (a : α) (s : σ) : (ofExcept (.ok a) : Update σ α).run s = .ok a s := rfl

@[simp] theorem run_ofExcept_error (e : Error) (s : σ) :
    (ofExcept (.error e) : Update σ α).run s = .error e s := rfl

@[simp] theorem run_map {β : Type} (f : α → β) (u : Update σ α) (s : σ) :
    (f <$> u).run s =
      match u.run s with
      | .ok a s' => .ok (f a) s'
      | .error e s' => .error e s' := by
  rw [map_eq_pure_bind, EStateM.run_bind]
  cases u.run s <;> rfl

@[simp] theorem run_getThe (s : σ) : (getThe σ : Update σ σ).run s = .ok s s := rfl

@[simp] theorem run_modifyThe (f : σ → σ) (s : σ) : (modifyThe σ f : Update σ PUnit).run s = .ok () (f s) := rfl

theorem after_of_run_ok {u : Update σ α} {s s' : σ} {a : α} (h : u.run s = .ok a s') : u.after s = s' := by
  simp [after, outcome, h]

theorem after_of_run_error {u : Update σ α} {s s' : σ} {e : Error} (h : u.run s = .error e s') :
    u.after s = s' := by
  simp [after, outcome, h]

end Update

end DocState
