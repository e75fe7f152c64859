import DocState.Proofs.Commands.Reading
import DocState.Proofs.Readback.Loops

/-!
# A new counter and the text that has named it

The command that creates a counter takes one backslash off its argument, and so does the test for a counter.  The
commands that read, set or step a counter take the argument as it stands, but for the blanks around it.

* `Session.runText_ifdefcounter`, `Session.runText_value`, `Session.runText_stepcounter`: three commands on arguments in
  braces.
* `Session.exists_of_newcounter`: the session after a counter has been created.
* `Session.CountsFromZero`: under this spelling, a counter stands at zero and is stepped to one.
* `Session.spelling_of_newcounter`: what has become of the spelling that has created a counter.
-/

namespace DocState

open Braces Procedure Scanner

/-! ## The name that an argument spells -/

theorem Name.spelled_of_head?_ne {command raw : Text} (h : raw.trim.head? ≠ some '\\') :
    spelled command false raw = .ok raw.trim := spelled_eq_ok_iff.2 (.inr ⟨rfl, rfl, h⟩)

/-- A backslash is taken off, and no text is its own rest. -/
theorem Name.ne_trim_of_spelled {command raw name : Text} (h : raw.trim.head? = some '\\')
    (hname : spelled command false raw = .ok name) : name ≠ raw.trim := by
  obtain ⟨rest, hraw⟩ := List.head?_eq_some_iff.1 h
  rw [spelled, hraw] at hname
  cases hname
  rw [hraw]
  exact (List.cons_ne_self '\\' name).symm

/-! ## Commands on arguments in braces -/

namespace Procedure

variable {s : Session} {command raw : Text}

theorem run_argument_last (hraw : IsBalanced raw) :
    (argument : Procedure Scanner Text).run command ⟨s, ⟨braced raw⟩⟩ = (.ok raw, ⟨s, ⟨[]⟩⟩) := by
  have hread : mandatory command ⟨braced raw⟩ = (.ok raw, ⟨[]⟩) := List.append_nil (braced raw) ▸ mandatory_braced hraw
  rw [run_argument, hread]

theorem run_changeCounters {σ α : Type} (u : Update Counters α) (source : σ) :
    (changeCounters u : Procedure σ α).run command ⟨s, source⟩ =
      ((u.outcome s.counters).1, ⟨{ s with counters := u.after s.counters }, source⟩) := rfl

theorem run_then_pure {σ α β : Type} (x : Procedure σ α) (b : β) (before : Situation σ) :
    (x >>= fun _ => pure b : Procedure σ β).run command before =
      ((fun _ => b) <$> (x.run command before).1, (x.run command before).2) := by
  rw [run_bind]
  rcases x.run command before with ⟨_ | _, _⟩ <;> rfl

end Procedure

namespace Session

variable {s : Session} {raw : Text}

theorem runText_value [Memory] (hraw : IsBalanced raw) :
    s.runText "value".toList (braced raw) = (.number <$> s.counters.value raw.trim, s) := by
  have hname : Command.lookup? "value".toList = some (.report .value) := by decide
  have hrun := runText_of_reads (s := s) hname Report.reads_value (List.forall_mem_singleton.2 hraw)
  rwa [List.flatMap_singleton] at hrun

theorem runText_stepcounter [Memory] (hraw : IsBalanced raw) :
    s.runText "stepcounter".toList (braced raw) =
      ((fun _ => .nothing) <$> ((Counters.step raw.trim).outcome s.counters).1,
        { s with counters := (Counters.step raw.trim).after s.counters }) := by
  have hread : (counter : Procedure Scanner Text).Reads "\\stepcounter".toList s [raw] [] _ := reads_counter
  obtain ⟨later, hname, -⟩ := hread (groups [raw]) (gives_groups (List.forall_mem_singleton.2 hraw))
  rw [groups, List.flatMap_singleton] at hname
  have hstep : (CounterCommand.run .step : Procedure Scanner Unit).run "\\stepcounter".toList ⟨s, ⟨braced raw⟩⟩ =
      (((Counters.step raw.trim).outcome s.counters).1,
        ⟨{ s with counters := (Counters.step raw.trim).after s.counters }, later⟩) := by
    rw [CounterCommand.run]
    cases hplace : s.counters.place raw.trim with
    | error e =>
      have hrefused : (Counters.step raw.trim).run s.counters = .error e s.counters := by
        rw [Counters.run_step, hplace]
      rw [hplace] at hname
      rw [run_bind, hname, Update.after_of_run_error hrefused, Update.outcome, hrefused]
      rfl
    | ok i =>
      rw [hplace] at hname
      rw [run_bind_of_ok hname, run_changeCounters]
  have hrun : s.run "stepcounter".toList (Scanner.mk (braced raw)) =
      (CounterCommand.run .step >>= fun _ => pure .nothing : Procedure Scanner Expansion).run
        "\\stepcounter".toList ⟨s, ⟨braced raw⟩⟩ := rfl
  rw [runText, hrun, run_then_pure, hstep]

/-- An argument that names no counter. -/
theorem refused_of_place_error [Memory] (hraw : IsBalanced raw) {e : Error} (h : s.counters.place raw.trim = .error e) :
    (s.runText "value".toList (braced raw)).1 = .error e ∧
      (s.runText "stepcounter".toList (braced raw)).1 = .error e := by
  have hstep : (Counters.step raw.trim).run s.counters = .error e s.counters := by
    rw [Counters.run_step, h]
  constructor
  · rw [runText_value hraw]
    exact congrArg (Except.map Expansion.number) (Counters.value_eq_of_place_error h)
  · rw [runText_stepcounter hraw, Update.outcome, hstep]
    rfl

theorem runText_ifdefcounter [Memory] (hraw : IsBalanced raw) {y n : Text} (hy : IsBalanced y) (hn : IsBalanced n) :
    (s.runText "ifdefcounter".toList (braced raw ++ (braced y ++ braced n))).1 =
      (fun name => .branch (s.counters.contains name) y n) <$> s.name "\\ifdefcounter".toList false raw := by
  have hname : Command.lookup? "ifdefcounter".toList = some (.test .counterDefined) := by decide
  have hbalanced : ∀ argument ∈ [raw, y, n], IsBalanced argument := by simp [hraw, hy, hn]
  have hrun := runText_of_reads (s := s) hname (Test.reads_run Test.reads_counterDefined) hbalanced
  have htext : [raw, y, n].flatMap braced = braced raw ++ (braced y ++ braced n) := by simp
  rw [← htext, hrun, Functor.map_map]
  rfl

/-- The creation of a counter without a parent is refused for its argument, or is that of the name that is spelled. -/
theorem run_new_braced (hraw : IsBalanced raw) (command : Text) :
    (∃ e, (CounterCommand.run .new : Procedure Scanner Unit).run command ⟨s, ⟨braced raw⟩⟩ =
        (.error e, ⟨s, ⟨[]⟩⟩)) ∨
      ∃ name, s.name command false raw = .ok name ∧
        (CounterCommand.run .new : Procedure Scanner Unit).run command ⟨s, ⟨braced raw⟩⟩ =
          ((fun _ => ()) <$> ((Counters.create name none 0).outcome s.counters).1,
            ⟨{ s with counters := (Counters.create name none 0).after s.counters }, ⟨[]⟩⟩) := by
  rw [CounterCommand.run, run_bind_of_ok (run_argument_last hraw)]
  split
  · exact .inl ⟨.invalidArgumentOrder command, rfl⟩
  · cases hname : s.name command false raw with
    | error e =>
      refine .inl ⟨e, ?_⟩
      have hrefused : (nameOf false raw : Procedure Scanner Text).run command ⟨s, ⟨[]⟩⟩ =
          (.error e, ⟨s, ⟨[]⟩⟩) := congrArg (·, _) hname
      rw [run_bind, hrefused]
    | ok name =>
      refine .inr ⟨name, rfl, ?_⟩
      have hspelled : (nameOf false raw : Procedure Scanner Text).run command ⟨s, ⟨[]⟩⟩ =
          (.ok name, ⟨s, ⟨[]⟩⟩) := congrArg (·, _) hname
      rw [run_bind_of_ok hspelled]
      exact run_then_pure (changeCounters (Counters.create name none 0) : Procedure Scanner Nat) () ⟨s, ⟨[]⟩⟩

/-- A counter that is created without a parent stands at zero behind the others. -/
theorem exists_of_newcounter [Memory] (hraw : IsBalanced raw) {result : Expansion}
    (h : (s.runText "newcounter".toList (braced raw)).1 = .ok result) :
    ∃ name, s.name "\\newcounter".toList false raw = .ok name ∧ s.counters.contains name = false ∧
      (s.runText "newcounter".toList (braced raw)).2 =
        { s with counters := s.counters.grow ⟨name, 0, none, [], .plain⟩ } := by
  have hrun : s.run "newcounter".toList (Scanner.mk (braced raw)) =
      (CounterCommand.run .new >>= fun _ => pure .nothing : Procedure Scanner Expansion).run
        "\\newcounter".toList ⟨s, ⟨braced raw⟩⟩ := rfl
  rw [runText, hrun, run_then_pure] at h ⊢
  rcases run_new_braced (s := s) hraw "\\newcounter".toList with ⟨e, hnew⟩ | ⟨name, hname, hnew⟩
  · rw [hnew] at h
    cases h
  · rw [hnew] at h ⊢
    by_cases hthere : s.counters.contains name = true
    · have hrefused : (Counters.create name none 0).run s.counters = .error (.duplicateCounter name) s.counters := by
        rw [Counters.run_create, if_pos hthere]
      rw [Update.outcome, hrefused] at h
      cases h
    · have hcreated : (Counters.create name none 0).run s.counters =
          .ok s.counters.size (s.counters.grow ⟨name, 0, none, [], .plain⟩) := by
        rw [Counters.run_create, if_neg hthere]
        rfl
      refine ⟨name, hname, Bool.eq_false_iff.2 hthere, ?_⟩
      rw [Update.after_of_run_ok hcreated]

/-- The argument names a counter that stands at zero, and a step takes it to one. -/
structure CountsFromZero [Memory] (s : Session) (raw : Text) : Prop where
  value : (s.runText "value".toList (braced raw)).1 = .ok (.number 0)
  step : (s.runText "stepcounter".toList (braced raw)).1 = .ok .nothing
  stepped : ((s.runText "stepcounter".toList (braced raw)).2.runText "value".toList (braced raw)).1 = .ok (.number 1)

/-- A counter that has just come is found under an argument that is its name, with blanks around it or without. -/
theorem countsFromZero_grow [Memory] (hraw : IsBalanced raw) :
    ({ s with counters := s.counters.grow ⟨raw.trim, 0, none, [], .plain⟩ }).CountsFromZero raw := by
  let counters := s.counters.grow ⟨raw.trim, 0, none, [], .plain⟩
  let stepped := counters.revalue (Counters.only s.counters.size (·.plus 1))
  have hvalue : counters.value raw.trim = .ok 0 := Counters.value_grow_self nofun
  have hstep : (Counters.step raw.trim).run counters = .ok () stepped := Counters.run_step_grow_self rfl nofun
  have hstepped : stepped.value raw.trim = .ok 1 := by
    have hplace : counters.place raw.trim = .ok s.counters.size := by
      rw [Counters.place_grow, if_pos rfl]
    rw [Counters.value_revalue hplace hvalue, Counters.only, if_pos rfl]
    rfl
  have hrun : ({ s with counters }).runText "stepcounter".toList (braced raw) =
      (.ok .nothing, { s with counters := stepped }) := by
    rw [runText_stepcounter hraw, Update.after_of_run_ok hstep, Update.outcome, hstep]
    rfl
  refine ⟨?_, congrArg Prod.fst hrun, ?_⟩
  · rw [runText_value hraw]
    exact congrArg (Except.map Expansion.number) hvalue
  · rw [hrun, runText_value hraw]
    exact congrArg (Except.map Expansion.number) hstepped

/-- What one command has read as the name of a new counter, the test reads as that name. -/
theorem runText_ifdefcounter_grow [Memory] {command name y n : Text} (hraw : IsBalanced raw) (hy : IsBalanced y)
    (hn : IsBalanced n) (hname : s.name command false raw = .ok name) :
    (({ s with counters := s.counters.grow ⟨name, 0, none, [], .plain⟩ }).runText "ifdefcounter".toList
      (braced raw ++ (braced y ++ braced n))).1 = .ok (.branch true y n) := by
  let counters := s.counters.grow ⟨name, 0, none, [], .plain⟩
  have hread : ({ s with counters }).name "\\ifdefcounter".toList false raw = .ok name := name_eq_ok_congr hname
  have hthere : counters.contains name = true := Counters.contains_grow_self
  rw [runText_ifdefcounter hraw hy hn, hread]
  exact congrArg (fun found => Except.ok (Expansion.branch found y n)) hthere

/-- The spelling that has created a counter is found by the test for counters.  If it does not begin with a backslash,
it also names the new counter, which counts from zero.  If it does, the backslash is taken for a part of the name: there
is no such counter, or it is an older one. -/
theorem spelling_of_newcounter [Memory] (hraw : IsBalanced raw) {result : Expansion}
    (hnew : (s.runText "newcounter".toList (braced raw)).1 = .ok result) :
    let s' := (s.runText "newcounter".toList (braced raw)).2
    (∀ y n, IsBalanced y → IsBalanced n →
      (s'.runText "ifdefcounter".toList (braced raw ++ (braced y ++ braced n))).1 = .ok (.branch true y n)) ∧
    (raw.trim.head? ≠ some '\\' → s'.CountsFromZero raw) ∧
    (raw.trim.head? = some '\\' →
      (s.counters.contains raw.trim = false →
        (s'.runText "value".toList (braced raw)).1 = .error (.undefinedCounter raw.trim) ∧
          (s'.runText "stepcounter".toList (braced raw)).1 = .error (.undefinedCounter raw.trim)) ∧
      ∀ v, s.counters.value raw.trim = .ok v → (s'.runText "value".toList (braced raw)).1 = .ok (.number v)) := by
  obtain ⟨name, hname, -, hsession⟩ := exists_of_newcounter hraw hnew
  let counters := s.counters.grow ⟨name, 0, none, [], .plain⟩
  have hspelled : Name.spelled "\\newcounter".toList false raw = .ok name := (name_eq_ok_iff.1 hname).1
  intro s'
  rw [show s' = { s with counters } from hsession]
  refine ⟨fun y n hy hn => runText_ifdefcounter_grow hraw hy hn hname, fun hhead => ?_, fun hhead => ?_⟩
  · rw [Name.spelled_of_head?_ne hhead] at hspelled
    obtain rfl := Except.ok.inj hspelled
    exact countsFromZero_grow hraw
  · -- the trimmed argument is not the new name, so it is looked up among the older counters
    have hother : name ≠ raw.trim := Name.ne_trim_of_spelled hhead hspelled
    refine ⟨fun habsent => ?_, fun v hv => ?_⟩
    · have hplace : counters.place raw.trim = .error (.undefinedCounter raw.trim) := by
        rw [Counters.place_grow, if_neg hother, Counters.place_of_not_contains habsent]
      exact refused_of_place_error hraw hplace
    · rw [runText_value hraw]
      exact congrArg (Except.map Expansion.number) (Counters.value_grow_of_ne hother hv)

/-- A name with blanks around it. -/
theorem spelling_of_newcounter_page :
    let _ : Memory := .upTo 4096
    let raw : Text := " page ".toList
    let s := fresh .standard
    let s' := (s.runText "newcounter".toList (braced raw)).2
    IsBalanced raw ∧ (s.runText "newcounter".toList (braced raw)).1 = .ok .nothing ∧
      raw.trim.head? ≠ some '\\' ∧ s'.CountsFromZero raw := by
  intro _ raw s s'
  have hraw : IsBalanced raw := by decide
  have hnew : (s.runText "newcounter".toList (braced raw)).1 = .ok .nothing := by rfl
  have hhead : raw.trim.head? ≠ some '\\' := by decide
  exact ⟨hraw, hnew, hhead, (spelling_of_newcounter hraw hnew).2.1 hhead⟩

/-- A control sequence creates a counter that the test finds and that cannot be read under this spelling. -/
theorem not_countsFromZero_chapter :
    let _ : Memory := .upTo 4096
    let raw : Text := "\\chapter".toList
    let s := fresh .standard
    let s' := (s.runText "newcounter".toList (braced raw)).2
    IsBalanced raw ∧ (s.runText "newcounter".toList (braced raw)).1 = .ok .nothing ∧
      (s'.runText "ifdefcounter".toList (braced raw ++ (braced ['y'] ++ braced ['n']))).1 = .ok (.branch true ['y'] ['n']) ∧
      (s'.runText "value".toList (braced raw)).1 = .error (.undefinedCounter raw) ∧ ¬ s'.CountsFromZero raw := by
  intro _ raw s s'
  have hvalue : (s'.runText "value".toList (braced raw)).1 = .error (.undefinedCounter raw) := by rfl
  refine ⟨by decide, by rfl, by rfl, hvalue, fun hcounts => ?_⟩
  have hzero := hcounts.value
  rw [hvalue] at hzero
  cases hzero

end Session
end DocState
