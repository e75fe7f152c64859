import Mathlib.Data.List.Induction
import DocState.Proofs.Effects.Stores

/-!
# Flags after many operations

Bools and toggles stand in one table, in the order in which they came.  Whatever is done with the ones, the others
cannot tell; and a flag shows the last value that it was given since it came.

* `Flags.Operation`, `Flags.transcript`, `Flags.afterAll`: operations on flags one after the other, with what they answer
  and the flags after them.
* `Flags.part fs k`: the flags of one namespace as a table of their own.
* `Flags.Seen k op answer t t'`: all that an operation can do to that table.  `Flags.seen`: no operation does anything
  else.  `Seen.unique`: what is done on a namespace depends on its own flags alone.
* `Flags.agree_afterAll`: operations on the other namespace do not show.
* `Flags.given`: the values that a flag was given.  `Flags.get?_afterAll`: the last of them is what it shows.
* `Flags.exists_created`: a flag that is there was created once since the last reset.
* `Flags.keys_afterAll`: names keep their order until the next reset, and new ones come last.
* `Flags.mixed_history`: all this from the beginning of a document on.
-/

namespace DocState
namespace Flags

/-! ## Sequences of operations -/

/-- An operation with its arguments. -/
inductive Operation
  | create (space : FlagSpace) (name : Text) (strict : Bool)
  | set (space : FlagSpace) (name : Text) (value : Bool)
  | get (space : FlagSpace) (name : Text)
  | contains (space : FlagSpace) (name : Text)
  | reset
deriving DecidableEq, Repr

namespace Operation

/-- Runs the operation, which answers with a truth value if it asks for one. -/
def update : Operation → Update Flags (Option Bool)
  | create space name strict => (fun _ => none) <$> Flags.create space name strict
  | set space name value => (fun _ => none) <$> Flags.set space name value
  | get space name => do return some (← Update.ofExcept ((← getThe Flags).get space name))
  | contains space name => do return some ((← getThe Flags).contains space name)
  | reset => do
    modifyThe Flags fun _ => .empty
    return none

/-- Whether the operation is one on this namespace or the reset of both. -/
def concerns (k : FlagSpace) : Operation → Bool
  | create space _ _ | set space _ _ | get space _ | contains space _ => space = k
  | reset => true

end Operation

/-- The operations with their answers. -/
def transcript (fs : Flags) : List Operation → List (Operation × Except Error (Option Bool))
  | [] => []
  | op :: later => (op, (op.update.outcome fs).1) :: transcript (op.update.after fs) later

/-- The flags after operations one after the other. -/
def afterAll (fs : Flags) (ops : List Operation) : Flags := ops.foldl (fun fs op => op.update.after fs) fs

/-- The values that a flag was given by operations that were not refused, the first one first. -/
def given (k : FlagSpace) (name : Text) (entries : List (Operation × Except Error (Option Bool))) : List Bool :=
  entries.filterMap fun
    | (.set space name' value, .ok _) => if space = k ∧ name' = name then some value else none
    | _ => none

variable {fs fs' : Flags} {k : FlagSpace} {op : Operation} {name : Text} {value : Bool}

theorem afterAll_append (ops later : List Operation) :
    fs.afterAll (ops ++ later) = (fs.afterAll ops).afterAll later := List.foldl_append

/-! ## One namespace -/

/-- The flags of one namespace. -/
def part (fs : Flags) (k : FlagSpace) : Table Text Bool := ⟨fs.inSpace k⟩

theorem get?_part : (fs.part k).get? name = fs.table.get? (k, name) := by
  obtain ⟨⟨es⟩⟩ := fs
  simp only [part, inSpace, Table.get?]
  induction es with
  | nil => rfl
  | cons e rest ih =>
    obtain ⟨⟨space, name'⟩, b⟩ := e
    by_cases hspace : space = k
    · by_cases hname : name' = name <;> simp [Table.get?.find, hspace, hname, ih]
    · simp [Table.get?.find, hspace, ih]

theorem contains_part : (fs.part k).contains name = fs.contains k name := by
  rw [Table.contains, get?_part]
  rfl

theorem part_insert_self : part ⟨fs.table.insert (k, name) value⟩ k = (fs.part k).insert name value := by
  obtain ⟨⟨es⟩⟩ := fs
  simp only [part, inSpace, Table.insert]
  refine congrArg Table.mk ?_
  induction es with
  | nil => simp [Table.insert.put]
  | cons e rest ih =>
    obtain ⟨⟨space, name'⟩, b⟩ := e
    by_cases hspace : space = k
    · by_cases hname : name' = name
      · simp [Table.insert.put, hspace, hname]
      · simpa [Table.insert.put, hspace, hname] using ih
    · simpa [Table.insert.put, hspace] using ih

/-- The flags of one namespace are not those of the other one, so none of these is missed. -/
theorem inSpace_eq_filterMap_filter {space : FlagSpace} (h : space ≠ k) (name : Text) (fs : Flags) :
    fs.inSpace k = (fs.table.entries.filter fun entry => entry.1 ≠ (space, name)).filterMap
      fun ((s, name), value) => if s = k then some (name, value) else none := by
  rw [List.filterMap_filter]
  refine congrFun (congrArg List.filterMap (funext ?_)) _
  rintro ⟨⟨space', name'⟩, value⟩
  by_cases hspace : space' = k
  · simp [hspace, Ne.symm h]
  · simp [hspace]

theorem part_insert_of_ne {space : FlagSpace} (h : space ≠ k) :
    part ⟨fs.table.insert (space, name) value⟩ k = fs.part k := by
  have hagree := Table.agreeExcept_insert fs.table (space, name) value
  rw [Table.AgreeExcept] at hagree
  rw [part, part, inSpace_eq_filterMap_filter h name, inSpace_eq_filterMap_filter h name, hagree]

/-! ## One operation -/

theorem outcome_create (space : FlagSpace) (name : Text) (strict : Bool) (fs : Flags) :
    (Operation.create space name strict).update.outcome fs =
      if (fs.part space).contains name then
        (if strict then .error (.duplicateFlag space name) else .ok none, fs)
      else (.ok none, ⟨fs.table.insert (space, name) false⟩) := by
  rw [contains_part, Operation.update, Update.outcome, Update.run_map, run_create]
  by_cases hthere : fs.contains space name = true
  · cases strict <;> simp [hthere]
  · simp [hthere]

theorem outcome_set (space : FlagSpace) (name : Text) (value : Bool) (fs : Flags) :
    (Operation.set space name value).update.outcome fs =
      if (fs.part space).contains name then (.ok none, ⟨fs.table.insert (space, name) value⟩)
      else (.error (.undefinedFlag space name), fs) := by
  rw [contains_part, Operation.update, Update.outcome, Update.run_map, run_set]
  by_cases hthere : fs.contains space name = true <;> simp [hthere]

theorem outcome_get (space : FlagSpace) (name : Text) (fs : Flags) :
    (Operation.get space name).update.outcome fs = (some <$> fs.get space name, fs) := by
  rw [Operation.update, Update.outcome]
  simp only [EStateM.run_bind, Update.run_getThe]
  cases fs.get space name <;> rfl

/-- What an operation answers, and what it makes of the flags of one namespace. -/
inductive Seen (k : FlagSpace) :
    Operation → Except Error (Option Bool) → Table Text Bool → Table Text Bool → Prop
  | elsewhere {op : Operation} (h : op.concerns k = false) (answer : Except Error (Option Bool)) (t : Table Text Bool) :
    Seen k op answer t t
  | created {name : Text} {t : Table Text Bool} (strict : Bool) (h : t.contains name = false) :
    Seen k (.create k name strict) (.ok none) t (t.insert name false)
  | kept {name : Text} {t : Table Text Bool} (strict : Bool) (h : t.contains name = true) :
    Seen k (.create k name strict) (if strict then .error (.duplicateFlag k name) else .ok none) t t
  | put {name : Text} {t : Table Text Bool} (value : Bool) (h : t.contains name = true) :
    Seen k (.set k name value) (.ok none) t (t.insert name value)
  | refused {name : Text} {t : Table Text Bool} (value : Bool) (h : t.contains name = false) :
    Seen k (.set k name value) (.error (.undefinedFlag k name)) t t
  | shown {name : Text} {t : Table Text Bool} {value : Bool} (h : t.get? name = some value) :
    Seen k (.get k name) (.ok (some value)) t t
  | unknown {name : Text} {t : Table Text Bool} (h : t.get? name = none) :
    Seen k (.get k name) (.error (.undefinedFlag k name)) t t
  | contains (name : Text) (t : Table Text Bool) : Seen k (.contains k name) (.ok (some (t.contains name))) t t
  | reset (t : Table Text Bool) : Seen k .reset (.ok none) t .empty

/-- Nothing else is done by any operation, seen from either namespace. -/
theorem seen (op : Operation) (fs : Flags) (k : FlagSpace) :
    Seen k op (op.update.outcome fs).1 (fs.part k) ((op.update.after fs).part k) := by
  rw [Update.after]
  cases hop : op.concerns k with
  | false =>
    have hsame : (op.update.outcome fs).2.part k = fs.part k := by
      cases op with
      | create space name strict =>
        rw [outcome_create]
        split
        · rfl
        · exact part_insert_of_ne (of_decide_eq_false hop)
      | set space name value =>
        rw [outcome_set]
        split
        · exact part_insert_of_ne (of_decide_eq_false hop)
        · rfl
      | get space name => rw [outcome_get]
      | contains space name => rfl
      | reset => cases hop
    rw [hsame]
    exact .elsewhere hop _ _
  | true =>
    cases op with
    | create space name strict =>
      obtain rfl : space = k := of_decide_eq_true hop
      rw [outcome_create]
      cases hthere : (fs.part space).contains name with
      | true => exact .kept strict hthere
      | false => exact part_insert_self ▸ Seen.created strict hthere
    | set space name value =>
      obtain rfl : space = k := of_decide_eq_true hop
      rw [outcome_set]
      cases hthere : (fs.part space).contains name with
      | true => exact part_insert_self ▸ Seen.put value hthere
      | false => exact .refused value hthere
    | get space name =>
      obtain rfl : space = k := of_decide_eq_true hop
      rw [outcome_get, Flags.get, ← get?_part]
      cases hvalue : (fs.part space).get? name with
      | none => exact .unknown hvalue
      | some value => exact .shown hvalue
    | contains space name =>
      obtain rfl : space = k := of_decide_eq_true hop
      have hanswer := Seen.contains (k := space) name (fs.part space)
      rw [contains_part] at hanswer
      exact hanswer
    | reset => exact .reset _

theorem given_cons (entry : Operation × Except Error (Option Bool)) (later : List (Operation × Except Error (Option Bool))) :
    given k name (entry :: later) = given k name [entry] ++ given k name later :=
  List.filterMap_append (l := [entry])

theorem given_of_not_concerns (h : op.concerns k = false) (answer : Except Error (Option Bool)) :
    given k name [(op, answer)] = [] := by
  cases op with
  | set space name' value =>
    have hspace : space ≠ k := of_decide_eq_false h
    cases answer <;> simp [given, hspace]
  | create | get | contains | reset => rfl

theorem contains_insert_of_ne {t : Table Text Bool} {name' : Text} (h : name' ≠ name) :
    (t.insert name' value).contains name = t.contains name := by
  rw [Table.contains, Table.contains, Table.get?_insert, if_neg h]

namespace Seen

variable {t t' t₁ t₂ : Table Text Bool} {answer answer₁ answer₂ : Except Error (Option Bool)}

/-- What is done on the other namespace leaves the one as it is. -/
theorem eq_of_not_concerns (h : Seen k op answer t t') (hop : op.concerns k = false) : t' = t := by
  cases h with
  | elsewhere | kept | refused | shown | unknown | contains => rfl
  | created | put => simp [Operation.concerns] at hop
  | reset => cases hop

/-- What is done on one namespace depends on its flags alone, in what is answered and in what becomes of them. -/
theorem unique (h₁ : Seen k op answer₁ t t₁) (h₂ : Seen k op answer₂ t t₂) (hop : op.concerns k = true) :
    answer₁ = answer₂ ∧ t₁ = t₂ := by
  cases h₁ <;> cases h₂ <;> simp_all

/-- A flag that is there keeps its value or is given another one, as long as no reset comes. -/
theorem get?_eq (h : Seen k op answer t t') (hvalue : t.get? name = some value) (hop : op ≠ .reset) :
    t'.get? name = some ((given k name [(op, answer)]).getLast?.getD value) := by
  cases h with
  | elsewhere hop => rwa [given_of_not_concerns hop]
  | @created name' _ strict hnew =>
    have hname : name' ≠ name := by
      rintro rfl
      rw [Table.contains, hvalue] at hnew
      cases hnew
    rw [Table.get?_insert, if_neg hname]
    exact hvalue
  | @put name' _ value' hthere =>
    rw [Table.get?_insert]
    by_cases hname : name' = name
    · simp [given, hname]
    · rw [if_neg hname, hvalue]
      simp [given, hname]
  | kept | refused | shown | unknown | contains => exact hvalue
  | reset => exact absurd rfl hop

/-- A flag that has come with an operation was created by it. -/
theorem eq_create (h : Seen k op answer t t') (hbefore : t.contains name = false) (hafter : t'.contains name = true) :
    ∃ strict, op = .create k name strict := by
  cases h with
  | @created name' _ strict hnew =>
    by_cases hname : name' = name
    · exact ⟨strict, by rw [hname]⟩
    · rw [contains_insert_of_ne hname, hbefore] at hafter
      cases hafter
  | @put name' _ value hthere =>
    have hname : name' ≠ name := by
      rintro rfl
      rw [hbefore] at hthere
      cases hthere
    rw [contains_insert_of_ne hname, hbefore] at hafter
    cases hafter
  | elsewhere | kept | refused | shown | unknown | contains =>
    rw [hbefore] at hafter
    cases hafter
  | reset => cases hafter

/-- The names keep their order, and a new one comes last. -/
theorem keys_extended (h : Seen k op answer t t') (hop : op ≠ .reset) : t.keys <+: t'.keys := by
  cases h with
  | created strict hnew =>
    rw [Table.keys_insert, hnew]
    exact List.prefix_append _ _
  | @put name _ value hthere =>
    have hkeys : (t.insert name value).keys = t.keys := by rw [Table.keys_insert, if_pos hthere]
    exact hkeys ▸ List.prefix_rfl
  | elsewhere | kept | refused | shown | unknown | contains => exact List.prefix_rfl
  | reset => exact absurd rfl hop

end Seen

/-! ## Many operations -/

/-- Flags that agree on one namespace are told apart neither by what is done on it nor by what is done on the other. -/
theorem agree_afterAll (h : fs.part k = fs'.part k) (ops : List Operation) :
    (transcript fs ops).filter (fun entry => entry.1.concerns k) = transcript fs' (ops.filter (·.concerns k)) ∧
      (fs.afterAll ops).part k = (fs'.afterAll (ops.filter (·.concerns k))).part k := by
  induction ops generalizing fs fs' with
  | nil => exact ⟨rfl, h⟩
  | cons op later ih =>
    cases hop : op.concerns k with
    | true =>
      obtain ⟨hanswer, hafter⟩ := (seen op fs k).unique (h ▸ seen op fs' k) hop
      obtain ⟨hlater, hend⟩ := ih hafter
      have hkept : (transcript fs (op :: later)).filter (fun entry => entry.1.concerns k) =
          (op, (op.update.outcome fs).1) :: (transcript (op.update.after fs) later).filter fun entry =>
            entry.1.concerns k := List.filter_cons_of_pos hop
      rw [hkept, List.filter_cons_of_pos hop, transcript, hanswer, hlater]
      exact ⟨rfl, hend⟩
    | false =>
      have hskip : ¬ op.concerns k = true := by simp [hop]
      have hdropped : (transcript fs (op :: later)).filter (fun entry => entry.1.concerns k) =
          (transcript (op.update.after fs) later).filter fun entry => entry.1.concerns k :=
        List.filter_cons_of_neg hskip
      rw [hdropped, List.filter_cons_of_neg hskip]
      exact ih (((seen op fs k).eq_of_not_concerns hop).trans h)

/-- Until the next reset, a flag shows the last value that it was given, or the one that it had. -/
theorem get?_afterAll (h : (fs.part k).get? name = some value) {ops : List Operation} (hops : .reset ∉ ops) :
    ((fs.afterAll ops).part k).get? name = some ((given k name (transcript fs ops)).getLast?.getD value) := by
  induction ops generalizing fs value with
  | nil => exact h
  | cons op later ih =>
    obtain ⟨hop, hlater⟩ := not_or.1 (mt List.mem_cons.2 hops)
    have hrest := ih ((seen op fs k).get?_eq h (Ne.symm hop)) hlater
    have hgiven : given k name (transcript fs (op :: later)) =
        given k name [(op, (op.update.outcome fs).1)] ++ given k name (transcript (op.update.after fs) later) :=
      given_cons _ _
    show (((op.update.after fs).afterAll later).part k).get? name = _
    rw [hrest, hgiven, List.getLast?_append]
    cases (given k name (transcript (op.update.after fs) later)).getLast? <;> rfl

theorem get_eq_ok_iff : fs.get k name = .ok value ↔ (fs.part k).get? name = some value := by
  rw [get, get?_part]
  cases fs.table.get? (k, name) <;> simp

theorem contains_of_get (h : fs.get k name = .ok value) : fs.contains k name = true := by
  rw [← contains_part, Table.contains, get_eq_ok_iff.1 h]
  rfl

/-- Until the next reset, a flag that was created shows the last value that it was given since then, or `false`. -/
theorem get_afterAll_created {strict : Bool} (hnew : fs.contains k name = false) {after : List Operation}
    (hafter : .reset ∉ after) :
    (fs.afterAll (.create k name strict :: after)).get k name =
      .ok ((given k name (transcript fs (.create k name strict :: after))).getLast?.getD false) := by
  have hcreated : (((Operation.create k name strict).update.after fs).part k).get? name = some false := by
    rw [Update.after, outcome_create, contains_part, if_neg (by simp [hnew]), part_insert_self, Table.get?_insert,
      if_pos rfl]
  exact get_eq_ok_iff.2 (get?_afterAll hcreated hafter)

/-- A flag that is there was created once since the last reset. -/
theorem exists_created {ops : List Operation} (h : (empty.afterAll ops).contains k name = true) :
    ∃ before strict after, ops = before ++ .create k name strict :: after ∧
      (empty.afterAll before).contains k name = false ∧ .reset ∉ after := by
  induction ops using List.reverseRecOn with
  | nil => cases h
  | append_singleton ops op ih =>
    rw [afterAll_append] at h
    cases hbefore : (empty.afterAll ops).contains k name with
    | false =>
      have hseen := seen op (empty.afterAll ops) k
      rw [← contains_part] at hbefore h
      obtain ⟨strict, rfl⟩ := hseen.eq_create hbefore h
      exact ⟨ops, strict, [], rfl, contains_part ▸ hbefore, List.not_mem_nil⟩
    | true =>
      obtain ⟨before, strict, after, rfl, hnew, hafter⟩ := ih hbefore
      refine ⟨before, strict, after ++ [op], by simp, hnew, ?_⟩
      have hop : .reset ≠ op := by
        rintro rfl
        cases h
      simpa [hafter] using hop

theorem keys_afterAll {ops : List Operation} (hops : .reset ∉ ops) (fs : Flags) :
    (fs.part k).keys <+: ((fs.afterAll ops).part k).keys := by
  induction ops generalizing fs with
  | nil => exact List.prefix_rfl
  | cons op later ih =>
    obtain ⟨hop, hlater⟩ := not_or.1 (mt List.mem_cons.2 hops)
    exact ((seen op fs k).keys_extended (Ne.symm hop)).trans (ih hlater _)

/-! ## From the beginning of a document on -/

/-- What is done with bools is not noticed by toggles and the other way round; a flag shows the last value that it was
given since it was created, without a reset in between; and its namespace lists it in the order of creation. -/
theorem mixed_history (ops : List Operation) (k : FlagSpace) :
    (transcript empty ops).filter (fun entry => entry.1.concerns k) = transcript empty (ops.filter (·.concerns k)) ∧
      (empty.afterAll ops).inSpace k = (empty.afterAll (ops.filter (·.concerns k))).inSpace k ∧
      (∀ name value, (empty.afterAll ops).get k name = .ok value ↔ ∃ before strict after,
        ops = before ++ .create k name strict :: after ∧ (empty.afterAll before).contains k name = false ∧
          .reset ∉ after ∧ value = (given k name
            (transcript (empty.afterAll before) (.create k name strict :: after))).getLast?.getD false) ∧
      (∀ name, (empty.afterAll ops).contains k name = true →
        (Operation.create k name false).update.outcome (empty.afterAll ops) = (.ok none, empty.afterAll ops)) ∧
      ∀ before after, ops = before ++ after → .reset ∉ after →
        ((empty.afterAll before).inSpace k).map Prod.fst <+: ((empty.afterAll ops).inSpace k).map Prod.fst := by
  obtain ⟨hanswers, hpart⟩ := agree_afterAll (rfl : empty.part k = empty.part k) ops
  refine ⟨hanswers, congrArg Table.entries hpart, fun name value => ⟨fun h => ?_, ?_⟩, fun name hthere => ?_, ?_⟩
  · obtain ⟨before, strict, after, rfl, hnew, hafter⟩ := exists_created (contains_of_get h)
    rw [afterAll_append, get_afterAll_created hnew hafter] at h
    exact ⟨before, strict, after, rfl, hnew, hafter, (Except.ok.inj h).symm⟩
  · rintro ⟨before, strict, after, rfl, hnew, hafter, rfl⟩
    rw [afterAll_append]
    exact get_afterAll_created hnew hafter
  · rw [outcome_create, contains_part, if_pos hthere]
    rfl
  · rintro before after rfl hafter
    rw [afterAll_append]
    exact keys_afterAll hafter _

/-- A bool and a toggle of one name, a reset, and both again: the bool is provided twice and set twice, refused while it
was away, and the toggle comes after another one. -/
theorem mixed_history_draft :
    let ops : List Operation := [.create .bool "draft".toList true, .set .bool "draft".toList true, .reset,
      .set .bool "draft".toList true, .create .toggle "final".toList false, .create .bool "draft".toList false,
      .create .toggle "draft".toList true, .set .bool "draft".toList true, .create .toggle "draft".toList true,
      .create .bool "draft".toList false, .set .toggle "final".toList true]
    let again : List Operation := [.create .bool "draft".toList true, .set .bool "draft".toList true, .reset,
      .set .bool "draft".toList true, .create .bool "draft".toList false, .set .bool "draft".toList true,
      .create .bool "draft".toList false]
    (empty.afterAll ops).inSpace .bool = (empty.afterAll again).inSpace .bool ∧
      (empty.afterAll ops).get .bool "draft".toList = .ok true ∧
      (empty.afterAll ops).get .toggle "draft".toList = .ok false ∧
      (Operation.create .bool "draft".toList false).update.outcome (empty.afterAll ops) =
        (.ok none, empty.afterAll ops) ∧
      ["final".toList] <+: ((empty.afterAll ops).inSpace .toggle).map Prod.fst := by
  intro ops again
  obtain ⟨-, hbools, hvalue, hprovided, -⟩ := mixed_history ops .bool
  obtain ⟨-, -, htoggle, -, horder⟩ := mixed_history ops .toggle
  refine ⟨hbools.trans (by decide), (hvalue _ _).2 ?_, (htoggle _ _).2 ?_, hprovided _ (by decide), ?_⟩
  · exact ⟨ops.take 5, false, ops.drop 6, by decide, by decide, by decide, by decide⟩
  · exact ⟨ops.take 6, true, ops.drop 7, by decide, by decide, by decide, by decide⟩
  · exact horder (ops.take 5) (ops.drop 5) (by decide) (by decide)

end Flags
end DocState
