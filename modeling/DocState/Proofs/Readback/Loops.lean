import DocState.Proofs.Maintained
import DocState.Proofs.Readback.Parsers

/-!
# What a loop over a list expands to is read back item by item

An item reaches a list as a mandatory argument.  It is a balanced text, or a closing brace or a backslash that stood
alone and does not survive in braces.

* `Lists.get?_after_add`, `Lists.get?_after_change`: one list after an update.
* `Session.Spells`: the text gives a list command the name of its list.
* `Session.WellRead`: all lists can be named, and all items have been arguments.
* `Session.wellRead_runText`, `Session.wellRead_runTexts`: the session stays well read.
* `Session.readings_dolistloop`: the calls that a loop expands to are read back if and only if neither of the two
  characters is an item of the list.
-/

namespace DocState

open Braces Procedure Scanner

/-! ## One list after an update -/

namespace Lists

variable {ls : Lists} {name other : Text}

theorem get_eq_ok_iff {items : List Text} : ls.get name = .ok items ↔ ls.table.get? name = some items := by
  unfold get
  cases ls.table.get? name <;> simp

theorem get?_eq_none_of_not_contains (h : ¬ ls.contains name = true) : ls.table.get? name = none :=
  Option.not_isSome_iff_eq_none.1 h

theorem get?_after_change {f : List Text → List Text} : ((change name f).after ls).table.get? other =
    if name = other then (ls.table.get? other).map f else ls.table.get? other := by
  by_cases hthere : ls.contains name = true
  · rw [Update.after_of_run_ok (by rw [run_change, if_pos hthere]), Table.get?_modify]
  · rw [Update.after_of_run_error (by rw [run_change, if_neg hthere])]
    by_cases hname : name = other
    · subst other
      rw [if_pos rfl, get?_eq_none_of_not_contains hthere]
      rfl
    · rw [if_neg hname]

/-- A list that a tolerant creation finds keeps its items, and one that it does not find is empty. -/
theorem get?_after_create : ((create name false).after ls).table.get? other =
    if name = other then some ((ls.table.get? other).getD []) else ls.table.get? other := by
  by_cases hthere : ls.contains name = true
  · have hrun : (create name false).run ls = .ok () ls := by
      rw [run_create, if_pos hthere]
      rfl
    rw [Update.after_of_run_ok hrun]
    by_cases hname : name = other
    · subst other
      obtain ⟨items, hitems⟩ := Option.isSome_iff_exists.1 hthere
      rw [if_pos rfl, hitems]
      rfl
    · rw [if_neg hname]
  · rw [Update.after_of_run_ok (by rw [run_create, if_neg hthere]), Table.get?_insert]
    by_cases hname : name = other
    · subst other
      rw [if_pos rfl, if_pos rfl, get?_eq_none_of_not_contains hthere]
      rfl
    · rw [if_neg hname, if_neg hname]

/-- A list that an item is added to has the item last, unless it is empty. -/
theorem get?_after_add {item : Text} :
    ((create name false >>= fun _ => add name item).after ls).table.get? other =
      if name = other then
        some (if item.isEmpty then (ls.table.get? other).getD [] else (ls.table.get? other).getD [] ++ [item])
      else ls.table.get? other := by
  obtain ⟨ls', hcreate, -⟩ := exists_run_create name ls
  have hafter : (create name false >>= fun _ => add name item).after ls = (add name item).after ls' := by
    rw [Update.after, Update.outcome, EStateM.run_bind, hcreate]
    rfl
  have hcreated : (create name false).after ls = ls' := Update.after_of_run_ok hcreate
  rw [hafter, add, get?_after_change, ← hcreated, get?_after_create]
  by_cases h : name = other <;> simp [h]

end Lists

/-! ## Names of lists in a text -/

theorem Scanner.mandatory_eq_ok_congr {command command' argument : Text} {s s' : Scanner}
    (h : mandatory command s = (.ok argument, s')) : mandatory command' s = (.ok argument, s') :=
  mandatory_eq_ok_iff.2 (mandatory_eq_ok_iff.1 h)

namespace Session

variable {s : Session} {name text : Text}

/-- The first argument of the text spells the name. -/
def Spells (s : Session) (text name : Text) : Prop :=
  ∃ command raw, (mandatory command ⟨text⟩).1 = .ok raw ∧ s.name command false raw = .ok name

theorem spells_of_run_name {command : Text} {scanner : Scanner}
    (h : ((Procedure.name false).run command ⟨s, scanner⟩).1 = .ok name) : s.Spells scanner.unread name := by
  obtain ⟨raw, rest, hraw, hname, -⟩ := run_name_eq_ok_iff.1 (Prod.ext h rfl)
  exact ⟨command, raw, congrArg Prod.fst hraw, hname⟩

/-- What one command reads as a name, any command reads as that name. -/
theorem Spells.exists_run (h : s.Spells text name) (command : Text) :
    ∃ rest, (Procedure.name false).run command ⟨s, Scanner.mk text⟩ = (.ok name, ⟨s, rest⟩) := by
  obtain ⟨command', raw, hraw, hname⟩ := h
  exact ⟨_, run_name_eq_ok_iff.2 ⟨raw, _, mandatory_eq_ok_congr (Prod.ext hraw rfl), name_eq_ok_congr hname, rfl⟩⟩

theorem runText_dolistloop [Memory] {items : List Text} (hname : s.Spells text name)
    (hlist : s.lists.get name = .ok items) :
    (s.runText "dolistloop".toList text).1 = .ok (.tokens (handed standardHandler items)) := by
  obtain ⟨rest, hread⟩ := hname.exists_run ('\\' :: "dolistloop".toList)
  have hloop : (perform "dolistloop".toList : Procedure Scanner Expansion) = Report.run .loop := rfl
  show ((perform "dolistloop".toList).run ('\\' :: "dolistloop".toList) ⟨s, Scanner.mk text⟩).1 = _
  rw [hloop, Report.run, run_bind_of_ok hread]
  show ((Procedure.ofExcept (s.lists.get name) >>=
    fun items => pure (.tokens (handed standardHandler items)) : Procedure Scanner Expansion).run _ _).1 = _
  rw [hlist]
  rfl

/-! ## Sessions whose items have been read -/

/-- Each list has a name that some text spells, and has items that can be read as arguments. -/
structure WellRead (s : Session) : Prop where
  named : ∀ name items, s.lists.get name = .ok items → ∃ text, s.Spells text name
  item : ∀ name items, s.lists.get name = .ok items → ∀ item ∈ items, IsArgument item

theorem wellRead_fresh (options : Options) : (fresh options).WellRead where
  named _ _ h := by cases h
  item _ _ h := by cases h

namespace WellRead

/-- Lists may be put in that are there already, or that have a name and items of that kind. -/
theorem put (h : s.WellRead) {lists : Lists} (hlists : ∀ other items, lists.get other = .ok items →
    s.lists.get other = .ok items ∨ (∃ text, s.Spells text other) ∧ ∀ item ∈ items, IsArgument item) :
    ({ s with lists }).WellRead where
  named other items hother := (hlists other items hother).elim (h.named other items) And.left
  item other items hother := (hlists other items hother).elim (h.item other items) And.right

theorem add (h : s.WellRead) (hname : ∃ text, s.Spells text name) {item : Text} (hitem : IsArgument item) :
    ({ s with lists := (Lists.create name false >>= fun _ => Lists.add name item).after s.lists }).WellRead := by
  refine h.put fun other items hother => ?_
  rw [Lists.get_eq_ok_iff, Lists.get?_after_add] at hother
  split at hother
  · subst name
    refine .inr ⟨hname, ?_⟩
    have hbefore : ∀ kept ∈ (s.lists.table.get? other).getD [], IsArgument kept := by
      cases hlist : s.lists.table.get? other with
      | none => exact fun kept hkept => absurd hkept List.not_mem_nil
      | some before => exact h.item other before (Lists.get_eq_ok_iff.2 hlist)
    cases hother
    split
    · exact hbefore
    · intro kept hkept
      rcases List.mem_append.1 hkept with hkept | hlast
      · exact hbefore kept hkept
      · exact List.mem_singleton.1 hlast ▸ hitem
  · exact .inl (Lists.get_eq_ok_iff.2 hother)

theorem remove (h : s.WellRead) (item : Text) :
    ({ s with lists := (Lists.remove name item).after s.lists }).WellRead := by
  refine h.put fun other items hother => ?_
  rw [Lists.get_eq_ok_iff, Lists.remove, Lists.get?_after_change] at hother
  split at hother
  · obtain ⟨before, hbefore, rfl⟩ := Option.map_eq_some_iff.1 hother
    have hlist : s.lists.get other = .ok before := Lists.get_eq_ok_iff.2 hbefore
    exact .inr ⟨h.named other before hlist, fun kept hkept =>
      h.item other before hlist kept (List.mem_of_mem_erase hkept)⟩
  · exact .inl (Lists.get_eq_ok_iff.2 hother)

end WellRead
end Session

/-- What is added to a list has been read as an argument, behind a text that spells the name of the list. -/
theorem ListCommand.maintains_run (c : ListCommand) : (c.run : Procedure Scanner Unit).Maintains Session.WellRead := by
  cases c with
  | add =>
    -- `WellRead` alone does not say enough in between: what has been read so far goes along with it
    refine Ensures.after_reading (R := fun list s => s.WellRead ∧ ∃ text, s.Spells text list) (readOnly_name false)
      (fun s hs => hs) (fun command s list hlist hs => ⟨hs, _, Session.spells_of_run_name hlist⟩) fun list => ?_
    refine Ensures.after_reading (R := fun item s => (s.WellRead ∧ ∃ text, s.Spells text list) ∧ IsArgument item)
      readOnly_argument (fun s hs => hs.1) (fun command s item hitem hs => ⟨hs, isArgument_of_mandatory hitem⟩)
      fun item => ?_
    rw [changeLists_bind]
    exact ensures_update fun s ⟨⟨hs, hlist⟩, hitem⟩ => hs.add hlist hitem
  | remove =>
    refine Maintains.after_reading (readOnly_name false) fun list => ?_
    exact Maintains.after_reading readOnly_argument fun item => ensures_update fun s hs => hs.remove item

namespace Session

variable {s : Session} {name text : Text}

/-- One command. -/
theorem wellRead_runText [Memory] (h : s.WellRead) (command text : Text) : (s.runText command text).2.WellRead :=
  maintains_perform (fun _ _ hs => ⟨hs.named, hs.item⟩) (fun _ _ hs => ⟨hs.named, hs.item⟩)
    (fun _ _ hs => ⟨hs.named, hs.item⟩) ListCommand.maintains_run command ('\\' :: command) ⟨s, Scanner.mk text⟩ h

/-- The session after commands, each with the text that it reads. -/
def runTexts [Memory] (s : Session) (history : List (Text × Text)) : Session :=
  history.foldl (fun s (command, text) => (s.runText command text).2) s

/-- Any commands, refused or not. -/
theorem wellRead_runTexts [Memory] (h : s.WellRead) (history : List (Text × Text)) : (s.runTexts history).WellRead := by
  induction history generalizing s with
  | nil => exact h
  | cons call history ih => exact ih (wellRead_runText h call.1 call.2)

/-! ## Loops -/

/-- Whatever has been run before, each list can be looped over, and the calls are read back as its items in order, with
nothing left behind them, if and only if no item is a closing brace or a backslash. -/
theorem readings_dolistloop [Memory] {options : Options} {history : List (Text × Text)} {name : Text}
    {items : List Text} (hlist : ((fresh options).runTexts history).lists.get name = .ok items) :
    let s := (fresh options).runTexts history
    (∃ text, s.Spells text name) ∧
      ∀ text, s.Spells text name →
        ∃ source, (s.runText "dolistloop".toList text).1 = .ok (.tokens source) ∧
          ∀ command, readings command (2 * items.length) ⟨source⟩ = (.ok (calls standardHandler items), ⟨[]⟩) ↔
            ['}'] ∉ items ∧ ['\\'] ∉ items := by
  intro s
  have hs : s.WellRead := wellRead_runTexts (wellRead_fresh options) history
  refine ⟨hs.named name items hlist, fun text hname => ?_⟩
  refine ⟨handed standardHandler items, runText_dolistloop hname hlist, fun command => ?_⟩
  exact (readings_handed_iff isHandler_standardHandler).trans (forall_isBalanced_iff (hs.item name items hlist))

/-- A list with a group, a control sequence and a character that have come and another character that has gone. -/
theorem readings_dolistloop_tokens :
    let _ : Memory := .upTo 4096
    let s := (fresh .standard).runTexts [("listadd".toList, "{L}{a{b}}".toList), ("listadd".toList, "L\\c d".toList),
      ("listadd".toList, "L d".toList), ("listadd".toList, "L e".toList), ("listremove".toList, "L d".toList)]
    s.lists.get ['L'] = .ok ["a{b}".toList, "\\c".toList, "e".toList] ∧
      ∃ source, (s.runText "dolistloop".toList "\\L".toList).1 = .ok (.tokens source) ∧
        readings [] 6 ⟨source⟩ = (.ok ["\\do".toList, "a{b}".toList, "\\do".toList, "\\c".toList, "\\do".toList,
          "e".toList], ⟨[]⟩) := by
  intro _ s
  have hlist : s.lists.get ['L'] = .ok ["a{b}".toList, "\\c".toList, "e".toList] := by rfl
  refine ⟨hlist, ?_⟩
  obtain ⟨source, hrun, hread⟩ := (readings_dolistloop hlist).2 "\\L".toList ⟨[], "\\L".toList, by rfl, by rfl⟩
  exact ⟨source, hrun, (hread []).2 ⟨by decide, by decide⟩⟩

/-- A closing brace that stands where a token is read becomes an item, and in braces it closes its own group. -/
theorem not_readings_dolistloop_brace :
    let _ : Memory := .upTo 4096
    let s := (fresh .standard).runTexts [("listadd".toList, "{L}".toList ++ ['}'])]
    s.lists.get ['L'] = .ok [['}']] ∧
      ∃ source, (s.runText "dolistloop".toList "{L}".toList).1 = .ok (.tokens source) ∧
        readings [] 2 ⟨source⟩ = (.ok ["\\do".toList, []], ⟨['}']⟩) ∧
        readings [] 2 ⟨source⟩ ≠ (.ok (calls standardHandler [['}']]), ⟨[]⟩) := by
  intro _ s
  have hread : readings [] 2 ⟨handed standardHandler [['}']]⟩ = (.ok ["\\do".toList, []], ⟨['}']⟩) := by rfl
  refine ⟨by rfl, handed standardHandler [['}']], by rfl, hread, fun hback => ?_⟩
  rw [hread] at hback
  exact absurd (congrArg Prod.snd hback) (by decide)

end Session
end DocState
