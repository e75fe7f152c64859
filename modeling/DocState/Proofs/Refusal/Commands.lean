import DocState.Command.Execution
import DocState.Proofs.Refusal.Stores

/-!
# Refused commands leave no trace

A command reads its arguments first and changes the session last.  Two rules follow it through all commands: what
only reads may come before an atomic procedure, and what is never refused may come after one.

* `Procedure.ReadOnly`: a procedure that leaves the session as it is, whatever it answers.
* `Procedure.Atomic`: a procedure that leaves the session as it was if it is refused.
* `Procedure.Atomic.after_reading`, `Procedure.Atomic.then_pure`: the two rules.
* `Command.atomic_run`, `atomic_perform`: built-in commands, and all commands.
* `Session.unchanged_of_refused`: a refused command, and a refused update of a store, change nothing.
-/

namespace DocState
namespace Procedure

variable {σ α β : Type}

/-! ## Definitions -/

/-- The session stays as it is, whatever the result. -/
def ReadOnly (p : Procedure σ α) : Prop := ∀ command s, (p.run command s).2.session = s.session

/-- If the procedure is refused, the session is as it was. -/
def Atomic (p : Procedure σ α) : Prop :=
  ∀ command s e, (p.run command s).1 = .error e → (p.run command s).2.session = s.session

/-! ## Procedures in sequence -/

theorem ReadOnly.atomic {p : Procedure σ α} (h : p.ReadOnly) : p.Atomic := fun command s _ _ => h command s

theorem ReadOnly.bind {x : Procedure σ α} {f : α → Procedure σ β} (hx : x.ReadOnly)
    (hf : ∀ a, (f a).ReadOnly) : (x >>= f).ReadOnly := by
  intro command s
  have hread := hx command s
  rw [run_bind]
  cases hrun : x.run command s with
  | mk result after =>
    rw [hrun] at hread
    cases result with
    | ok a => exact (hf a command after).trans hread
    | error e => exact hread

theorem Atomic.after_reading {x : Procedure σ α} {f : α → Procedure σ β} (hx : x.ReadOnly)
    (hf : ∀ a, (f a).Atomic) : (x >>= f).Atomic := by
  intro command s e he
  have hread := hx command s
  rw [run_bind] at he ⊢
  cases hrun : x.run command s with
  | mk result after =>
    rw [hrun] at he hread
    cases result with
    | ok a => exact (hf a command after e he).trans hread
    | error e' => exact hread

theorem Atomic.then_pure {x : Procedure σ α} (hx : x.Atomic) (f : α → β) :
    (x >>= fun a => pure (f a)).Atomic := by
  intro command s e he
  have hunchanged := hx command s
  rw [run_bind] at he ⊢
  cases hrun : x.run command s with
  | mk result after =>
    rw [hrun] at he hunchanged
    cases result with
    | ok a => cases he
    | error e' => exact hunchanged e' rfl

/-! ## Procedures that change the session -/

theorem atomic_update {τ : Type} {part : Session → τ} {put : Session → τ → Session} {u : Update τ α}
    (hput : ∀ s, put s (part s) = s) (hu : u.Atomic) : (update part put u : Procedure σ α).Atomic := by
  intro command s e he
  rw [update] at he ⊢
  cases hrun : u.run (part s.session) with
  | ok a after => simp [Update.outcome, hrun] at he
  | error e' after =>
    have hafter : after = part s.session := hu _ _ _ hrun
    simp [Update.outcome, hrun, hafter, hput]

theorem atomic_changeCounters {u : Update Counters α} (hu : u.Atomic) :
    (changeCounters u : Procedure σ α).Atomic := atomic_update (fun _ => rfl) hu

theorem atomic_changeFlags {u : Update Flags α} (hu : u.Atomic) :
    (changeFlags u : Procedure σ α).Atomic := atomic_update (fun _ => rfl) hu

theorem atomic_changeLists {u : Update Lists α} (hu : u.Atomic) :
    (changeLists u : Procedure σ α).Atomic := atomic_update (fun _ => rfl) hu

/-- Two changes of the lists are one. -/
theorem changeLists_bind (u : Update Lists α) (f : α → Update Lists β) :
    (changeLists u >>= fun a => changeLists (f a) : Procedure σ β) = changeLists (u >>= f) := by
  have hrun : ∀ command s, (changeLists u >>= fun a => changeLists (f a) : Procedure σ β).run command s =
      (changeLists (u >>= f)).run command s := by
    intro command s
    rw [run_bind]
    simp only [changeLists, update, Update.outcome, EStateM.run_bind]
    cases u.run s.session.lists with
    | ok a after => rfl
    | error e after => rfl
  exact congrArg Procedure.mk (funext₂ hrun)

theorem atomic_declare (parser : Text) (p : ListParser) : (declare parser p : Procedure σ Unit).Atomic := by
  intro command s e he
  cases he

/-! ## Procedures that only read -/

theorem readOnly_pure (a : α) : (pure a : Procedure σ α).ReadOnly := fun _ _ => rfl

theorem readOnly_ofExcept (x : Except Error α) : (ofExcept x : Procedure σ α).ReadOnly := fun _ _ => rfl

theorem readOnly_caller : (caller : Procedure σ Text).ReadOnly := fun _ _ => rfl

theorem readOnly_session : (session : Procedure σ Session).ReadOnly := fun _ _ => rfl

theorem readOnly_fail (e : Error) : (fail e : Procedure σ α).ReadOnly := readOnly_ofExcept _

/-- What follows a failure is not reached. -/
theorem readOnly_fail_bind (e : Error) (f : α → Procedure σ β) : (fail e >>= f : Procedure σ β).ReadOnly :=
  fun _ _ => rfl

theorem ReadOnly.map {x : Procedure σ α} (hx : x.ReadOnly) (f : α → β) : (f <$> x).ReadOnly :=
  hx.bind fun a => readOnly_pure (f a)

theorem readOnly_nameOf (marked : Bool) (raw : Text) : (nameOf marked raw : Procedure σ Text).ReadOnly :=
  readOnly_session.bind fun _ => readOnly_caller.bind fun _ => readOnly_ofExcept _

variable [ArgumentSupply σ]

theorem readOnly_argument : (argument : Procedure σ Text).ReadOnly := fun _ _ => rfl

theorem readOnly_optional (fallback : Text) : (optional fallback : Procedure σ Text).ReadOnly := fun _ _ => rfl

theorem readOnly_star : (star : Procedure σ Bool).ReadOnly := fun _ _ => rfl

theorem readOnly_name (marked : Bool) : (name marked : Procedure σ Text).ReadOnly :=
  readOnly_argument.bind fun raw => readOnly_nameOf marked raw

theorem readOnly_counter : (counter : Procedure σ Text).ReadOnly := by
  refine readOnly_argument.bind fun raw => readOnly_session.bind fun s => ?_
  exact (readOnly_ofExcept _).bind fun _ => readOnly_pure _

theorem readOnly_integer : (integer : Procedure σ Number).ReadOnly :=
  readOnly_argument.bind fun _ => readOnly_session.bind fun _ => readOnly_ofExcept _

theorem readOnly_number : (number : Procedure σ Number).ReadOnly :=
  readOnly_argument.bind fun _ => readOnly_ofExcept _

end Procedure

/-! ## Built-in commands -/

open Procedure

variable {σ : Type} [ArgumentSupply σ]

theorem CounterCommand.atomic_run (c : CounterCommand) : (c.run : Procedure σ Unit).Atomic := by
  cases c with
  | new =>
    have hcreate : ∀ name parent, (discard (changeCounters (Counters.create name parent 0)) :
        Procedure σ Unit).Atomic := fun name parent =>
      (atomic_changeCounters (Counters.atomic_create name parent 0)).then_pure fun _ => ()
    refine Atomic.after_reading readOnly_argument fun raw => ?_
    split
    · exact (readOnly_caller.bind fun command => readOnly_fail_bind _ _).atomic
    · refine Atomic.after_reading (readOnly_nameOf false raw) fun name => ?_
      refine Atomic.after_reading (readOnly_optional []) fun above => ?_
      split
      · exact hcreate name none
      · exact Atomic.after_reading ((readOnly_nameOf false above).map some) fun parent => hcreate name parent
  | set =>
    refine Atomic.after_reading readOnly_counter fun name => Atomic.after_reading readOnly_number fun value => ?_
    exact atomic_changeCounters (Counters.atomic_set name value)
  | add =>
    refine Atomic.after_reading readOnly_counter fun name => Atomic.after_reading readOnly_number fun delta => ?_
    exact atomic_changeCounters (Counters.atomic_add name delta)
  | step =>
    refine Atomic.after_reading readOnly_counter fun name => ?_
    exact atomic_changeCounters (Counters.atomic_step name)
  | define =>
    refine Atomic.after_reading readOnly_counter fun name => Atomic.after_reading readOnly_integer fun value => ?_
    exact atomic_changeCounters (Counters.atomic_set name value)
  | within =>
    refine Atomic.after_reading readOnly_star fun starred => ?_
    refine Atomic.after_reading readOnly_counter fun name => Atomic.after_reading readOnly_counter fun above => ?_
    exact atomic_changeCounters (Counters.atomic_attach name above _)
  | without =>
    refine Atomic.after_reading readOnly_counter fun name => Atomic.after_reading readOnly_counter fun above => ?_
    exact atomic_changeCounters (Counters.atomic_detach name above)

theorem FlagCommand.atomic_run (space : FlagSpace) (c : FlagCommand) :
    (c.run space : Procedure σ Unit).Atomic := by
  cases c with
  | new strict =>
    refine Atomic.after_reading (readOnly_name false) fun flag => ?_
    exact atomic_changeFlags (Flags.atomic_create space flag strict)
  | set value =>
    cases value with
    | some value =>
      refine Atomic.after_reading (readOnly_name false) fun flag => ?_
      exact atomic_changeFlags (Flags.atomic_set space flag value)
    | none =>
      refine Atomic.after_reading (readOnly_name false) fun flag => ?_
      refine Atomic.after_reading readOnly_argument fun text => ?_
      refine Atomic.after_reading (readOnly_ofExcept _) fun value => ?_
      exact atomic_changeFlags (Flags.atomic_set space flag value)

theorem ListCommand.atomic_run (c : ListCommand) : (c.run : Procedure σ Unit).Atomic := by
  cases c with
  | add =>
    refine Atomic.after_reading (readOnly_name false) fun list => ?_
    refine Atomic.after_reading readOnly_argument fun item => ?_
    -- the creation is not undone, so the addition must not be refused
    rw [changeLists_bind]
    exact atomic_changeLists (Lists.total_create_add list item).atomic
  | remove =>
    refine Atomic.after_reading (readOnly_name false) fun list => ?_
    refine Atomic.after_reading readOnly_argument fun item => ?_
    exact atomic_changeLists (Lists.atomic_remove list item)

theorem atomic_declareParser : (declareParser : Procedure σ Unit).Atomic := by
  refine Atomic.after_reading readOnly_star fun readsHandler => ?_
  refine Atomic.after_reading (readOnly_name true) fun parser => ?_
  refine Atomic.after_reading readOnly_argument fun separator => ?_
  exact atomic_declare parser ⟨separator, readsHandler⟩

theorem Report.readOnly_run [Memory] (r : Report) : (r.run : Procedure σ Expansion).ReadOnly := by
  cases r with
  | format f =>
    refine readOnly_counter.bind fun name => readOnly_session.bind fun s => ?_
    exact (readOnly_ofExcept _).bind fun value => (readOnly_ofExcept _).bind fun numeral => readOnly_pure _
  | value =>
    refine readOnly_counter.bind fun name => readOnly_session.bind fun s => ?_
    exact (readOnly_ofExcept _).bind fun value => readOnly_pure _
  | number => exact readOnly_number.bind fun n => readOnly_pure _
  | romanNumeral =>
    refine readOnly_number.bind fun n => ?_
    exact (readOnly_ofExcept _).bind fun numeral => readOnly_pure _
  | loop =>
    refine (readOnly_name false).bind fun list => readOnly_session.bind fun s => ?_
    exact (readOnly_ofExcept _).bind fun items => readOnly_pure _
  | loopWith =>
    refine (readOnly_name true).bind fun handler => (readOnly_name false).bind fun list => ?_
    exact readOnly_session.bind fun s => (readOnly_ofExcept _).bind fun items => readOnly_pure _

theorem Test.readOnly_holds (t : Test) : (t.holds : Procedure σ Bool).ReadOnly := by
  cases t with
  | flag space negate =>
    refine (readOnly_name false).bind fun flag => readOnly_session.bind fun s => ?_
    exact (readOnly_ofExcept _).bind fun value => readOnly_pure _
  | counterDefined =>
    exact (readOnly_name false).bind fun counter => readOnly_session.bind fun s => readOnly_pure _
  | equalTexts => exact readOnly_argument.bind fun a => readOnly_argument.bind fun b => readOnly_pure _
  | empty trim negate => exact readOnly_argument.bind fun text => readOnly_pure _
  | compare relation =>
    cases relation with
    | some relation => exact readOnly_integer.bind fun a => readOnly_integer.bind fun b => readOnly_pure _
    | none =>
      refine readOnly_integer.bind fun a => readOnly_argument.bind fun symbol => readOnly_integer.bind fun b => ?_
      cases Relation.ofSymbol? symbol with
      | some relation => exact readOnly_pure _
      | none => exact readOnly_fail _
  | parity p => exact readOnly_integer.bind fun n => readOnly_pure _
  | inList =>
    refine readOnly_argument.bind fun item => (readOnly_name false).bind fun list => ?_
    exact readOnly_session.bind fun s => readOnly_ofExcept _

theorem Test.readOnly_run (t : Test) : (t.run : Procedure σ Expansion).ReadOnly := by
  refine t.readOnly_holds.bind fun condition => readOnly_argument.bind fun ifTrue => ?_
  exact readOnly_argument.bind fun ifFalse => readOnly_pure _

theorem Command.atomic_run [Memory] (c : Command) : (c.run : Procedure σ Expansion).Atomic := by
  cases c with
  | counter c => exact c.atomic_run.then_pure fun _ => Expansion.nothing
  | flag space c => exact (c.atomic_run space).then_pure fun _ => Expansion.nothing
  | list c => exact c.atomic_run.then_pure fun _ => Expansion.nothing
  | declareParser => exact atomic_declareParser.then_pure fun _ => Expansion.nothing
  | report r => exact r.readOnly_run.atomic
  | test t => exact t.readOnly_run.atomic

/-! ## All commands -/

theorem ListParser.readOnly_run (p : ListParser) : (p.run : Procedure σ Expansion).ReadOnly := by
  have hsplit : ∀ handler, (argument >>= fun text => Procedure.ofExcept (Separated.items p.separator text) >>=
      fun items => pure (.tokens (handed handler items)) : Procedure σ Expansion).ReadOnly := fun handler =>
    readOnly_argument.bind fun text => (readOnly_ofExcept _).bind fun items => readOnly_pure _
  unfold ListParser.run
  cases p.readsHandler with
  | true => exact (readOnly_name true).bind hsplit
  | false => exact hsplit standardHandler

omit [ArgumentSupply σ] in
theorem readOnly_display (name : Text) : (display name : Procedure σ Expansion).ReadOnly := by
  refine readOnly_session.bind fun s => ?_
  cases displayedCounter? name with
  | none => exact readOnly_caller.bind fun command => readOnly_fail _
  | some counter =>
    show (if s.counters.contains counter then _ else _ : Procedure σ Expansion).ReadOnly
    split
    · exact (readOnly_ofExcept _).bind fun text => readOnly_pure _
    · exact readOnly_caller.bind fun command => readOnly_fail _

theorem atomic_perform [Memory] (name : Text) : (perform name : Procedure σ Expansion).Atomic := by
  unfold perform
  cases Command.lookup? name with
  | some command => exact command.atomic_run
  | none =>
    refine Atomic.after_reading readOnly_session fun s => ?_
    cases s.parser? name with
    | some parser => exact parser.readOnly_run.atomic
    | none => exact (readOnly_display name).atomic

namespace Session

/-- If a command is refused, the session is as it was, and if an update of a store is refused, the store is as it
was. -/
theorem unchanged_of_refused [Memory] :
    (∀ (s : Session) (name text : Text) (e : Error),
      (s.runText name text).1 = .error e → (s.runText name text).2 = s) ∧
    (∀ (σ : Type) [ArgumentSupply σ] (s : Session) (name : Text) (source : σ) (e : Error),
      (s.run name source).1 = .error e → (s.run name source).2.session = s) ∧
    (∀ name parent initial, (Counters.create name parent initial).Atomic) ∧
    (∀ name value, (Counters.set name value).Atomic) ∧
    (∀ name delta, (Counters.add name delta).Atomic) ∧
    (∀ name, (Counters.step name).Atomic) ∧
    (∀ name above display, (Counters.attach name above display).Atomic) ∧
    (∀ name above, (Counters.detach name above).Atomic) ∧
    (∀ space name strict, (Flags.create space name strict).Atomic) ∧
    (∀ space name value, (Flags.set space name value).Atomic) ∧
    (∀ name strict, (Lists.create name strict).Atomic) ∧
    (∀ name item, (Lists.add name item).Atomic) ∧
    (∀ name text separator, (Lists.addSeparated name text separator).Atomic) ∧
    (∀ name item, (Lists.remove name item).Atomic) := by
  have hrun : ∀ (σ : Type) [ArgumentSupply σ] (s : Session) (name : Text) (source : σ) (e : Error),
      (s.run name source).1 = .error e → (s.run name source).2.session = s := fun σ _ s name source e he =>
    atomic_perform name ('\\' :: name) ⟨s, source⟩ e he
  refine ⟨fun s name text e he => hrun Scanner s name ⟨text⟩ e he, hrun, ?_⟩
  exact ⟨Counters.atomic_create, Counters.atomic_set, Counters.atomic_add, Counters.atomic_step,
    Counters.atomic_attach, Counters.atomic_detach, Flags.atomic_create, Flags.atomic_set, Lists.atomic_create,
    Lists.atomic_add, Lists.atomic_addSeparated, Lists.atomic_remove⟩

/-- A number that cannot be read is refused, and the counter keeps its value. -/
theorem unchanged_setcounter_five :
    let _ : Memory := .upTo 4096
    let s := ((fresh .standard).runText "newcounter".toList "{page}".toList).2
    (s.runText "setcounter".toList "{page}{five}".toList).1 = .error (.invalidNumber "five".toList) ∧
      (s.runText "setcounter".toList "{page}{five}".toList).2 = s := by
  intro _ s
  have hrefused : (s.runText "setcounter".toList "{page}{five}".toList).1 =
      .error (.invalidNumber "five".toList) := by rfl
  exact ⟨hrefused, unchanged_of_refused.1 s _ _ _ hrefused⟩

end Session
end DocState
