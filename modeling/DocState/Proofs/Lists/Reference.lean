import DocState.Proofs.Effects.Stores
import DocState.Proofs.Readback.Loops

/-!
# Lists as functions of their names

To those who use them, the lists are a function that takes a name to the items under it, if there are any.  What each
operation does can be said of this function alone, one item and one list at a time.

* `Update.outcomes`: updates one after the other, each with its answer.  `Update.Refines view u v`: through `view`, the
  update `u` looks like `v`.
* `Contents`: the items under each name.  `Contents.create`, `Contents.add`, `Contents.remove`,
  `Contents.addSeparated`: the operations on them.
* `Lists.run_forM_add`: items that are added one after the other.  `Lists.run_addSeparated`: those of a separated text.
* `Lists.Operation.refines`: each operation on the lists refines the one on their contents.
* `Lists.contents_after`: all that an operation can do.  `Lists.NoEmptyItem`: no list has the empty item.
* `Lists.reference_history`: all this after any sequence of operations.
-/

namespace DocState

/-! ## Refinement of updates -/

namespace Update

variable {σ τ α β ι : Type} {view : σ → τ}

/-- The answers of updates one after the other, refused or not, and the store after them. -/
def outcomes (s : σ) : List (Update σ α) → List (Except Error α) × σ
  | [] => ([], s)
  | u :: later => ((u.outcome s).1 :: (outcomes (u.after s) later).1, (outcomes (u.after s) later).2)

/-- Through the view, the one update answers and does what the other one does. -/
def Refines (view : σ → τ) (u : Update σ α) (v : Update τ α) : Prop :=
  ∀ s, v.outcome (view s) = ((u.outcome s).1, view (u.after s))

theorem outcome_bind (u : Update σ α) (f : α → Update σ β) (s : σ) :
    (u >>= f).outcome s =
      match u.outcome s with
      | (.ok a, s') => (f a).outcome s'
      | (.error e, s') => (.error e, s') := by
  unfold outcome
  rw [EStateM.run_bind]
  cases u.run s <;> rfl

theorem Refines.pure (a : α) : Refines view (pure a) (pure a) := fun _ => rfl

theorem Refines.bind {u : Update σ α} {v : Update τ α} {f : α → Update σ β} {g : α → Update τ β} (h : Refines view u v)
    (hf : ∀ a, Refines view (f a) (g a)) : Refines view (u >>= f) (v >>= g) := by
  intro s
  rw [after, outcome_bind, outcome_bind, h s, after]
  obtain ⟨answer | a, s'⟩ := u.outcome s
  · rfl
  · exact hf a s'

theorem Refines.inTurn {f : ι → Update σ Unit} {g : ι → Update τ Unit} (h : ∀ i, Refines view (f i) (g i)) (is : List ι) :
    Refines view (forM is f) (forM is g) := by
  induction is with
  | nil => exact .pure ()
  | cons i later ih => exact (h i).bind fun _ => ih

/-- What holds for each update holds for all of them one after the other. -/
theorem Refines.outcomes {f : ι → Update σ α} {g : ι → Update τ α} (h : ∀ i, Refines view (f i) (g i)) (is : List ι)
    (s : σ) : outcomes (view s) (is.map g) =
      ((outcomes s (is.map f)).1, view (outcomes s (is.map f)).2) := by
  induction is generalizing s with
  | nil => rfl
  | cons i later ih =>
    have hafter : (g i).after (view s) = view ((f i).after s) := congrArg Prod.snd (h i s)
    rw [List.map_cons, List.map_cons, Update.outcomes, Update.outcomes, hafter, ih, h i s]

/-- What each update preserves holds after all of them. -/
theorem outcomes_preserves {P : σ → Prop} {f : ι → Update σ α} (h : ∀ i s, P s → P ((f i).after s)) (is : List ι)
    {s : σ} (hs : P s) : P (Update.outcomes s (is.map f)).2 := by
  induction is generalizing s with
  | nil => exact hs
  | cons i later ih => exact ih (h i s hs)

end Update

/-! ## Changes one after the other -/

namespace Table

variable {κ α : Type} [DecidableEq κ] {t : Table κ α} {k : κ} {f g : α → α}

theorem modify_modify : (t.modify k f).modify k g = t.modify k (g ∘ f) := by
  obtain ⟨es⟩ := t
  refine congrArg mk ?_
  show modify.change k g (modify.change k f es) = modify.change k (g ∘ f) es
  induction es with
  | nil => rfl
  | cons e rest ih => by_cases h : e.1 = k <;> simp [modify.change, h, ih]

theorem modify_id : t.modify k id = t := by
  obtain ⟨es⟩ := t
  refine congrArg mk ?_
  show modify.change k id es = es
  induction es with
  | nil => rfl
  | cons e rest ih =>
    obtain ⟨k', a⟩ := e
    by_cases h : k' = k <;> simp [modify.change, h, ih]

end Table

/-! ## The reference -/

/-- The items under each name. A name that no list has stands for nothing. -/
abbrev Contents := Text → Option (List Text)

namespace Contents

/-- No lists. -/
def empty : Contents := fun _ => none

/-- Items under one name. -/
def put (contents : Contents) (name : Text) (items : List Text) : Contents :=
  fun other => if name = other then some items else contents other

/-- The items under a name that has some. -/
def lookup (name : Text) : Update Contents (List Text) := do
  match (← getThe Contents) name with
  | some items => return items
  | none => throw (.undefinedList name)

/-- Puts no items under a name that stands for nothing. -/
def create (name : Text) (strict : Bool) : Update Contents Unit := do
  match (← getThe Contents) name with
  | some _ => if strict then throw (.duplicateList name)
  | none => modifyThe Contents (·.put name [])

/-- Puts an item behind the others, unless it is empty. -/
def add (name item : Text) : Update Contents Unit := do
  let items ← lookup name
  if item ≠ [] then modifyThe Contents (·.put name (items ++ [item]))

/-- Keeps what stands before the first such item and what stands behind it. -/
def remove (name item : Text) : Update Contents Unit := do
  let items ← lookup name
  modifyThe Contents (·.put name (items.takeWhile (· ≠ item) ++ (items.dropWhile (· ≠ item)).tail))

/-- Adds the items of a separated text one by one, as soon as it is known that there are such and a list for them. -/
def addSeparated (name text separator : Text) : Update Contents Unit := do
  let found ← Update.ofExcept (Separated.items separator text)
  let _ ← lookup name
  forM found (add name)

end Contents

namespace Lists

open Update (Refines)

/-! ## Operations -/

/-- An operation with its arguments. -/
inductive Operation
  | create (name : Text) (strict : Bool)
  | add (name item : Text)
  | addSeparated (name text separator : Text)
  | remove (name item : Text)
  | reset
deriving DecidableEq, Repr

namespace Operation

/-- Runs the operation. -/
def update : Operation → Update Lists Unit
  | create name strict => Lists.create name strict
  | add name item => Lists.add name item
  | addSeparated name text separator => Lists.addSeparated name text separator
  | remove name item => Lists.remove name item
  | reset => modifyThe Lists fun _ => .empty

/-- What the operation does to the contents. -/
def reference : Operation → Update Contents Unit
  | create name strict => Contents.create name strict
  | add name item => Contents.add name item
  | addSeparated name text separator => Contents.addSeparated name text separator
  | remove name item => Contents.remove name item
  | reset => modifyThe Contents fun _ => .empty

/-- Whether the operation is one on this list or the reset of all. -/
def concerns (name : Text) : Operation → Bool
  | create other _ | add other _ | addSeparated other _ _ | remove other _ => other = name
  | reset => true

end Operation

variable {ls : Lists} {name other item : Text} {items : List Text} {op : Operation}

/-- What stands under each name. -/
def contents (ls : Lists) : Contents := fun name => ls.table.get? name

/-! ## Items of a separated text -/

theorem contains_modify {f : List Text → List Text} :
    contains ⟨ls.table.modify name f⟩ other = ls.contains other := by
  rw [contains, contains, Table.contains, Table.contains, Table.get?_modify]
  split
  · exact Option.isSome_map
  · rfl

/-- Of items that are added one after the other, those that are not empty stand at the end. -/
theorem run_forM_add (hthere : ls.contains name = true) (found : List Text) :
    (forM found (add name)).run ls =
      .ok () ⟨ls.table.modify name fun items => items ++ found.filter fun item => !item.isEmpty⟩ := by
  induction found generalizing ls with
  | nil =>
    have hsame : (fun items : List Text => items ++ ([] : List Text).filter fun item => !item.isEmpty) = id := by
      funext items
      exact List.append_nil items
    rw [hsame, Table.modify_id]
    rfl
  | cons item later ih =>
    have hadd : (add name item).run ls = .ok () ⟨ls.table.modify name fun items =>
        if item.isEmpty then items else items ++ [item]⟩ := by rw [add, run_change, if_pos hthere]
    have hboth : ((fun items => items ++ later.filter fun item => !item.isEmpty) ∘
        fun items => if item.isEmpty then items else items ++ [item]) =
          fun items => items ++ (item :: later).filter fun item => !item.isEmpty := by
      funext items
      cases hempty : item.isEmpty <;> simp [hempty]
    show (add name item >>= fun _ => forM later (add name)).run ls = _
    rw [EStateM.run_bind, hadd]
    show (forM later (add name)).run _ = _
    rw [ih (contains_modify.trans hthere), Table.modify_modify, hboth]

theorem run_addSeparated (name text separator : Text) (ls : Lists) :
    (addSeparated name text separator).run ls =
      match Separated.items separator text with
      | .error e => .error e ls
      | .ok found => if ls.contains name then (forM found (add name)).run ls else .error (.undefinedList name) ls := by
  rw [addSeparated, EStateM.run_bind]
  cases Separated.items separator text with
  | error e => rfl
  | ok found =>
    show (change name _).run ls = _
    rw [run_change]
    by_cases hthere : ls.contains name = true
    · simp [hthere, run_forM_add hthere]
    · simp [hthere]

/-! ## Each operation -/

theorem contents_eq_none (h : ¬ ls.contains name = true) : ls.contents name = none :=
  get?_eq_none_of_not_contains h

theorem exists_contents (h : ls.contains name = true) : ∃ items, ls.contents name = some items :=
  Option.isSome_iff_exists.1 h

theorem contents_insert : contents ⟨ls.table.insert name items⟩ = ls.contents.put name items := by
  funext other
  exact Table.get?_insert

theorem erase_eq (items : List Text) (item : Text) :
    items.erase item = items.takeWhile (· ≠ item) ++ (items.dropWhile (· ≠ item)).tail := by
  induction items with
  | nil => rfl
  | cons first later ih => by_cases h : first = item <;> simp [h, ih]

theorem outcome_lookup (contents : Contents) : (Contents.lookup name).outcome contents =
    match contents name with
    | some items => (.ok items, contents)
    | none => (.error (.undefinedList name), contents) := by
  rw [Contents.lookup, Update.outcome, EStateM.run_bind, Update.run_getThe]
  cases h : contents name <;> simp only [h] <;> rfl

/-- A change of one list refines the lookup of its items with another list put in its place. -/
theorem refines_change {f : List Text → List Text} {g : List Text → Update Contents Unit}
    (h : ∀ contents items, contents name = some items →
      (g items).outcome contents = (.ok (), contents.put name (f items))) :
    Refines contents (change name f) (Contents.lookup name >>= g) := by
  intro ls
  rw [Update.outcome_bind, outcome_lookup, Update.after, Update.outcome, run_change]
  by_cases hthere : ls.contains name = true
  · obtain ⟨items, hitems⟩ := exists_contents hthere
    rw [if_pos hthere, hitems, Table.modify_eq_insert hitems]
    exact (h _ _ hitems).trans (by rw [contents_insert])
  · rw [if_neg hthere, contents_eq_none hthere]

theorem refines_create (name : Text) (strict : Bool) :
    Refines contents (create name strict) (Contents.create name strict) := by
  intro ls
  rw [Update.after, Update.outcome, Update.outcome, run_create, Contents.create, EStateM.run_bind, Update.run_getThe]
  by_cases hthere : ls.contains name = true
  · obtain ⟨items, hitems⟩ := exists_contents hthere
    rw [if_pos hthere]
    cases strict <;> simp [hitems]
  · rw [if_neg hthere, contents_insert]
    simp [contents_eq_none hthere]

theorem refines_add (name item : Text) : Refines contents (add name item) (Contents.add name item) := by
  refine refines_change fun contents items hitems => ?_
  cases item with
  | nil =>
    have hsame : contents.put name items = contents := by
      funext other
      by_cases h : name = other
      · rw [Contents.put, if_pos h, ← hitems, h]
      · rw [Contents.put, if_neg h]
    exact congrArg (Prod.mk _) hsame.symm
  | cons c cs => rfl

theorem refines_remove (name item : Text) : Refines contents (remove name item) (Contents.remove name item) :=
  refines_change fun contents items _ => by
    rw [erase_eq]
    rfl

theorem refines_addSeparated (name text separator : Text) :
    Refines contents (addSeparated name text separator) (Contents.addSeparated name text separator) := by
  intro ls
  rw [Contents.addSeparated, Update.outcome_bind, Update.after]
  cases hfound : Separated.items separator text with
  | error e => simp [Update.outcome, run_addSeparated, hfound]
  | ok found =>
    show (Contents.lookup name >>= fun _ => forM found (Contents.add name)).outcome ls.contents = _
    rw [Update.outcome_bind, outcome_lookup]
    by_cases hthere : ls.contains name = true
    · obtain ⟨items, hitems⟩ := exists_contents hthere
      have hadds := Refines.inTurn (refines_add name) found ls
      have hsame : (addSeparated name text separator).outcome ls = (forM found (add name)).outcome ls := by
        rw [Update.outcome, Update.outcome, run_addSeparated, hfound]
        simp [hthere]
      rw [hitems, hsame]
      exact hadds
    · simp [Update.outcome, run_addSeparated, hfound, hthere, contents_eq_none hthere]

theorem Operation.refines (op : Operation) : Refines contents op.update op.reference := by
  cases op with
  | create name strict => exact refines_create name strict
  | add name item => exact refines_add name item
  | addSeparated name text separator => exact refines_addSeparated name text separator
  | remove name item => exact refines_remove name item
  | reset => exact fun _ => rfl

/-! ## Other lists and other items -/

/-- No list has the empty item. -/
def NoEmptyItem (ls : Lists) : Prop := ∀ name items, ls.contents name = some items → [] ∉ items

theorem contents_after_change {f : List Text → List Text} (hf : ∀ items, [] ∉ items → [] ∉ f items) (name : Text)
    (ls : Lists) :
    ((change name f).after ls).contents = ls.contents ∨
      ∃ items, ((change name f).after ls).contents = ls.contents.put name items ∧ (ls.NoEmptyItem → [] ∉ items) := by
  by_cases hthere : ls.contains name = true
  · obtain ⟨items, hitems⟩ := exists_contents hthere
    refine .inr ⟨f items, ?_, fun h => hf items (h name items hitems)⟩
    rw [Update.after_of_run_ok (by rw [run_change, if_pos hthere]), Table.modify_eq_insert hitems, contents_insert]
  · exact .inl (by rw [Update.after_of_run_error (by rw [run_change, if_neg hthere])])

/-- An operation takes all lists away, does nothing, or puts items under its name, none of them empty if none was. -/
theorem contents_after (op : Operation) (ls : Lists) :
    op = .reset ∨ (op.update.after ls).contents = ls.contents ∨
      ∃ name items, op.concerns name = true ∧ (op.update.after ls).contents = ls.contents.put name items ∧
        (ls.NoEmptyItem → [] ∉ items) := by
  have hchange : ∀ {name f}, op.concerns name = true → op.update.after ls = (change name f).after ls →
      (∀ items, [] ∉ items → [] ∉ f items) → (op.update.after ls).contents = ls.contents ∨
        ∃ name items, op.concerns name = true ∧ (op.update.after ls).contents = ls.contents.put name items ∧
          (ls.NoEmptyItem → [] ∉ items) := by
    intro name f hname hafter hf
    rw [hafter]
    obtain hsame | ⟨items, hput, hitems⟩ := contents_after_change hf name ls
    · exact .inl hsame
    · exact .inr ⟨name, items, hname, hput, hitems⟩
  cases op with
  | create name strict =>
    by_cases hthere : ls.contains name = true
    · refine .inr (.inl ?_)
      rw [Operation.update, Update.after, Update.outcome, run_create, if_pos hthere]
      cases strict <;> rfl
    · refine .inr (.inr ⟨name, [], decide_eq_true rfl, ?_, fun _ => List.not_mem_nil⟩)
      rw [Operation.update, Update.after_of_run_ok (by rw [run_create, if_neg hthere]), contents_insert]
  | add name item =>
    refine .inr (hchange (decide_eq_true rfl) rfl fun items hitems => ?_)
    cases item with
    | nil => exact hitems
    | cons c cs => simpa using hitems
  | addSeparated name text separator =>
    refine .inr ?_
    cases hfound : Separated.items separator text with
    | error e => exact .inl (by rw [Operation.update, Update.after_of_run_error (by rw [run_addSeparated, hfound])])
    | ok found =>
      refine hchange (decide_eq_true rfl) (by rw [Operation.update, addSeparated, hfound]; rfl) fun items hitems => ?_
      simpa using hitems
  | remove name item =>
    exact .inr (hchange (decide_eq_true rfl) rfl fun items hitems hmem => hitems (List.mem_of_mem_erase hmem))
  | reset => exact .inl rfl

/-- An operation leaves the lists of other names as they are. -/
theorem contents_after_of_not_concerns (h : op.concerns other = false) (ls : Lists) :
    (op.update.after ls).contents other = ls.contents other := by
  obtain rfl | hsame | ⟨name, items, hname, hput, -⟩ := contents_after op ls
  · cases h
  · rw [hsame]
  · have hother : name ≠ other := by
      rintro rfl
      rw [h] at hname
      cases hname
    rw [hput, Contents.put, if_neg hother]

theorem NoEmptyItem.after (h : ls.NoEmptyItem) (op : Operation) : (op.update.after ls).NoEmptyItem := by
  intro other items hitems
  obtain rfl | hsame | ⟨name, items', -, hput, hnone⟩ := contents_after op ls
  · cases hitems
  · rw [hsame] at hitems
    exact h other items hitems
  · rw [hput, Contents.put] at hitems
    split at hitems
    · cases hitems
      exact hnone h
    · exact h other items hitems

/-! ## Any sequence of operations -/

theorem has_eq (ls : Lists) (name item : Text) :
    ls.has name item =
      match ls.contents name with
      | some items => .ok (decide (item ∈ items))
      | none => .error (.undefinedList name) := by
  rw [has, get, contents]
  cases ls.table.get? name with
  | none => rfl
  | some items => exact congrArg Except.ok (List.contains_eq_mem item items)

/-- After any sequence of operations the lists answer and hold what the reference does, none of them has the empty
item, and the next operation on one list adds items one by one, tolerates the list, or leaves all others alone. -/
theorem reference_history (ops : List Operation) :
    let ls := (Update.outcomes empty (ops.map (·.update))).2
    (Update.outcomes empty (ops.map (·.update))).1 = (Update.outcomes Contents.empty (ops.map (·.reference))).1 ∧
      ls.contents = (Update.outcomes Contents.empty (ops.map (·.reference))).2 ∧
      (∀ name items, ls.get name = .ok items → [] ∉ items) ∧
      (∀ name item, ls.has name item =
        match ls.contents name with
        | some items => .ok (decide (item ∈ items))
        | none => .error (.undefinedList name)) ∧
      (∀ name text separator, (addSeparated name text separator).run ls =
        match Separated.items separator text with
        | .error e => .error e ls
        | .ok found => if ls.contains name then (forM found (add name)).run ls else .error (.undefinedList name) ls) ∧
      (∀ name, ls.contains name = true → (create name false).run ls = .ok () ls) ∧
      ∀ op name, Operation.concerns name op = false → (op.update.after ls).contents name = ls.contents name := by
  intro ls
  have hsame := Refines.outcomes Operation.refines ops empty
  refine ⟨(congrArg Prod.fst hsame).symm, (congrArg Prod.snd hsame).symm, fun name items hitems => ?_, has_eq ls,
    ?_, ?_, ?_⟩
  · have hempty : empty.NoEmptyItem := fun _ _ h => by cases h
    have hnone : ls.NoEmptyItem := Update.outcomes_preserves (fun op _ h => h.after op) ops hempty
    exact hnone name items (get_eq_ok_iff.1 hitems)
  · exact fun name text separator => run_addSeparated name text separator ls
  · intro name hthere
    rw [run_create, if_pos hthere]
    rfl
  · exact fun op name h => contents_after_of_not_concerns h ls

/-- Two lists, of which one gets an item twice and loses it once; a text with a brace too many for a list that is not
there; and then a text with an empty item among others. -/
theorem reference_history_fruits :
    let ops : List Operation := [.create "fruits".toList true, .add "fruits".toList "fig".toList,
      .add "fruits".toList [], .create "nuts".toList false, .add "fruits".toList "pear".toList,
      .add "fruits".toList "fig".toList, .remove "fruits".toList "fig".toList, .create "fruits".toList true]
    let ls := (Update.outcomes empty (ops.map (·.update))).2
    (Update.outcomes empty (ops.map (·.update))).1.getLast? = some (.error (.duplicateList "fruits".toList)) ∧
      ls.contents "fruits".toList = some ["pear".toList, "fig".toList] ∧
      ls.has "fruits".toList "fig".toList = .ok true ∧
      (addSeparated "berries".toList ['}'] [',']).run ls = .error (.extraCloseBrace ['}']) ls ∧
      (addSeparated "fruits".toList "plum,".toList [',']).run ls =
        (forM ["plum".toList, []] (add "fruits".toList)).run ls ∧
      (create "nuts".toList false).run ls = .ok () ls ∧
      ((Operation.add "fruits".toList "plum".toList).update.after ls).contents "nuts".toList = some [] := by
  intro ops ls
  obtain ⟨hanswers, hcontents, -, hhas, hseparated, hprovided, hothers⟩ := reference_history ops
  have hfruits : ls.contents "fruits".toList = some ["pear".toList, "fig".toList] := congrFun hcontents _
  have hnuts : ls.contents "nuts".toList = some [] := congrFun hcontents _
  have hrefused : Separated.items [','] ['}'] = .error (.extraCloseBrace ['}']) := by cbv
  have hfound : Separated.items [','] "plum,".toList = .ok ["plum".toList, []] := by cbv
  refine ⟨congrArg List.getLast? hanswers, hfruits, ?_, ?_, ?_, hprovided _ (by decide), ?_⟩
  · rw [hhas, hcontents]
    rfl
  · rw [hseparated, hrefused]
  · rw [hseparated, hfound]
    exact if_pos (by decide)
  · exact (hothers _ _ (by decide)).trans hnuts

end Lists
end DocState
