import DocState.Proofs.Commands.Reading
import DocState.Proofs.Counters.History
import DocState.Proofs.Expression.Recognition
import DocState.Proofs.Refusal.Stores

/-!
# Which commands are known

A name stands for a built-in command, or else for a list parser, or else for a counter that it displays.  A name that
stands for none of them is refused before anything is read, and whatever else goes wrong, it is not for such a reason.

* `Known x`: a result that does not say that the command is unknown.  `Update.Known`, `Procedure.Known`: what has no
  other results.  `ArgumentSupply.Impartial`: sources that have no others.
* `Command.known_run`, `ListParser.known_run`: built-in commands and list parsers.
* `Session.Unknown s name`: the name stands for nothing.
* `Session.unknownCommand_iff`: on a text, such names are unknown commands, and no others.
-/

namespace DocState

variable {α β : Type}

/-! ## Results -/

/-- Whether an error says that the command is unknown. -/
def Error.isUnknown : Error → Bool
  | .unknownCommand _ => true
  | _ => false

/-- If the result is an error, it has another reason. -/
def Known (x : Except Error α) : Prop := ∀ e, x = .error e → e.isUnknown = false

theorem known_ok (a : α) : Known (.ok a : Except Error α) := nofun

theorem known_error {e : Error} (h : e.isUnknown = false) : Known (.error e : Except Error α) := by
  rintro _ ⟨⟩
  exact h

theorem Known.bind {x : Except Error α} {f : α → Except Error β} (hx : Known x) (hf : ∀ a, Known (f a)) :
    Known (x >>= f) := by
  cases x with
  | ok a => exact hf a
  | error e => exact known_error (hx e rfl)

theorem Known.map {x : Except Error α} (hx : Known x) (f : α → β) : Known (f <$> x) := by
  rw [map_eq_pure_bind]
  exact hx.bind fun a => known_ok (f a)

theorem Number.known_leading (text : Text) : Known (Number.leading text) := by
  simp only [Number.leading]
  split
  · exact known_ok _
  · exact known_error rfl

theorem Numeral.Format.known_apply [Memory] (f : Numeral.Format) (n : Number) : Known (f.apply n) := by
  refine Known.map ?_ f.inCase
  cases f.script with
  | roman =>
    show Known (Numeral.roman n)
    unfold Numeral.roman
    split
    · exact known_ok _
    · split
      · exact known_ok _
      · exact known_error rfl
  | arabic => exact known_ok _
  | letter => exact known_ok _
  | symbol => exact known_ok _

theorem Name.known_spelled (command : Text) (marked : Bool) (raw : Text) : Known (Name.spelled command marked raw) := by
  unfold Name.spelled
  split
  · exact known_ok _
  · split
    · exact known_error rfl
    · exact known_ok _

theorem Name.known_checked (command : Text) (marked : Bool) (raw : Text) : Known (Name.checked command marked raw) := by
  refine (known_spelled command marked raw).bind fun name => ?_
  split
  · exact known_ok _
  · exact known_error rfl

theorem Session.known_name (s : Session) (command : Text) (marked : Bool) (raw : Text) :
    Known (s.name command marked raw) := by
  unfold Session.name
  split
  · exact Name.known_checked command marked raw
  · exact Name.known_spelled command marked raw

theorem Session.known_integer (s : Session) (text : Text) : Known (s.integer text) := by
  have hvalue : Known (Expression.value text) := by
    intro e he
    cases Expression.fault_of_value he <;> rfl
  refine hvalue.bind fun x => ?_
  split
  · exact known_ok _
  · exact known_error rfl

theorem Separated.known_items (separator text : Text) : Known (Separated.items separator text) := by
  unfold Separated.items
  split
  · exact known_ok _
  · split
    · exact known_ok _
    · exact known_error rfl
    · exact known_error rfl

namespace Counters

theorem known_place (cs : Counters) (name : Text) : Known (cs.place name) := by
  unfold place
  split
  · exact known_ok _
  · exact known_error rfl

theorem known_parentPlace (cs : Counters) (parent : Option Text) : Known (cs.parentPlace parent) := by
  cases parent with
  | none => exact known_ok _
  | some name => exact (cs.known_place name).map some

theorem known_value (cs : Counters) (name : Text) : Known (cs.value name) := by
  have hfind : Known (cs.find name) := by
    unfold find
    split
    · exact known_ok _
    · exact known_error rfl
  exact hfind.bind fun counter => known_ok counter.value

end Counters

namespace Flags

theorem known_get (fs : Flags) (space : FlagSpace) (name : Text) : Known (fs.get space name) := by
  unfold get
  split
  · exact known_ok _
  · exact known_error rfl

theorem known_value (text : Text) : Known (value text) := by
  unfold value
  split
  · exact known_ok _
  · split
    · exact known_ok _
    · exact known_error rfl

end Flags

namespace Lists

theorem known_get (ls : Lists) (name : Text) : Known (ls.get name) := by
  unfold get
  split
  · exact known_ok _
  · exact known_error rfl

theorem known_has (ls : Lists) (name item : Text) : Known (ls.has name item) :=
  (ls.known_get name).bind fun items => known_ok (items.contains item)

end Lists

/-! ## Updates of the stores -/

/-- The update is never refused because a command is unknown. -/
def Update.Known {τ : Type} (u : Update τ α) : Prop := ∀ s, DocState.Known (u.outcome s).1

theorem Update.known_of_run {τ : Type} {u : Update τ α} (h : ∀ s e s', u.run s = .error e s' → e.isUnknown = false) :
    u.Known := by
  intro s e he
  unfold outcome at he
  cases hrun : u.run s with
  | ok a s' =>
    rw [hrun] at he
    cases he
  | error e' s' =>
    rw [hrun] at he
    cases he
    exact h s e s' hrun

namespace Counters

theorem known_create (name : Text) (parent : Option Text) (initial : Number) : (create name parent initial).Known := by
  refine Update.known_of_run fun cs e cs' h => ?_
  rw [run_create] at h
  split at h
  · cases h
    rfl
  · split at h
    · cases h
    · cases h
      exact cs.known_parentPlace parent e ‹_›

/-- What is looked up by name and then changed is refused only if it is not there. -/
theorem known_of_run_place {u : Update Counters Unit} {name : Text} {change : Nat → Counters → Counters}
    (h : ∀ cs, u.run cs =
      match cs.place name with
      | .ok i => .ok () (change i cs)
      | .error e => .error e cs) : u.Known := by
  refine Update.known_of_run fun cs e cs' hrun => ?_
  rw [h] at hrun
  split at hrun
  · cases hrun
  · cases hrun
    exact cs.known_place name e ‹_›

theorem known_set (name : Text) (value : Number) : (set name value).Known := known_of_run_place (run_set name value)

theorem known_add (name : Text) (delta : Number) : (add name delta).Known := known_of_run_place (run_add name delta)

theorem known_step (name : Text) : (step name).Known := known_of_run_place (run_step name)

theorem known_attach (name above : Text) (display : Bool) : (attach name above display).Known := by
  refine Update.known_of_run fun cs e cs' h => ?_
  rw [run_attach] at h
  split at h
  · split at h
    · cases h
      rfl
    · cases h
  · cases h
    exact cs.known_place name e ‹_›
  · cases h
    exact cs.known_place above e ‹_›

theorem known_detach (name above : Text) : (detach name above).Known := by
  refine Update.known_of_run fun cs e cs' h => ?_
  rw [run_detach] at h
  split at h
  · split at h <;> cases h
  · cases h
    exact cs.known_place name e ‹_›
  · cases h
    exact cs.known_place above e ‹_›

end Counters

namespace Flags

theorem known_create (space : FlagSpace) (name : Text) (strict : Bool) : (create space name strict).Known := by
  refine Update.known_of_run fun fs e fs' h => ?_
  rw [run_create] at h
  split at h
  · split at h
    · cases h
      rfl
    · cases h
  · cases h

theorem known_set (space : FlagSpace) (name : Text) (value : Bool) : (set space name value).Known := by
  refine Update.known_of_run fun fs e fs' h => ?_
  rw [run_set] at h
  split at h
  · cases h
  · cases h
    rfl

end Flags

namespace Lists

theorem known_create (name : Text) (strict : Bool) : (create name strict).Known := by
  refine Update.known_of_run fun ls e ls' h => ?_
  rw [run_create] at h
  split at h
  · split at h
    · cases h
      rfl
    · cases h
  · cases h

theorem known_change (name : Text) (f : List Text → List Text) : (change name f).Known := by
  refine Update.known_of_run fun ls e ls' h => ?_
  rw [run_change] at h
  split at h
  · cases h
  · cases h
    rfl

end Lists

/-! ## Procedures -/

/-- A source that does not judge the command which reads from it. -/
class ArgumentSupply.Impartial (σ : Type) [ArgumentSupply σ] : Prop where
  mandatory (command : Text) (source : σ) : Known (ArgumentSupply.mandatory command source).1
  optional (command fallback : Text) (source : σ) : Known (ArgumentSupply.optional command fallback source).1

instance : ArgumentSupply.Impartial Scanner where
  mandatory command s := by
    show Known (Scanner.mandatory command s).1
    simp only [Scanner.mandatory]
    split
    · split
      · exact known_ok _
      · exact known_error rfl
    · split
      · exact known_ok _
      · exact known_error rfl
  optional command fallback s := by
    show Known (Scanner.optional command fallback s).1
    simp only [Scanner.optional]
    split
    · split
      · exact known_ok _
      · exact known_error rfl
    · exact known_ok _

instance : ArgumentSupply.Impartial Prepared where
  mandatory command p := by
    show Known (Prepared.mandatory command p).1
    unfold Prepared.mandatory
    split
    · exact known_ok _
    · exact known_error rfl
  optional _ _ _ := known_ok _

namespace Procedure

variable {σ : Type}

/-- The procedure never fails because a command is unknown. -/
def Known (p : Procedure σ α) : Prop := ∀ command s, DocState.Known (p.run command s).1

theorem Known.bind {x : Procedure σ α} {f : α → Procedure σ β} (hx : x.Known) (hf : ∀ a, (f a).Known) :
    (x >>= f).Known := by
  intro command s
  have hfirst := hx command s
  rw [run_bind]
  cases hrun : x.run command s with
  | mk result after =>
    rw [hrun] at hfirst
    cases result with
    | ok a => exact hf a command after
    | error e => exact known_error (hfirst e rfl)

theorem known_pure (a : α) : (pure a : Procedure σ α).Known := fun _ _ => known_ok a

theorem known_ofExcept {x : Except Error α} (h : DocState.Known x) : (ofExcept x : Procedure σ α).Known :=
  fun _ _ => h

/-- What follows a failure is not reached. -/
theorem known_fail_bind {e : Error} (h : e.isUnknown = false) (f : α → Procedure σ β) : (fail e >>= f).Known :=
  fun _ _ => known_error h

theorem known_caller : (caller : Procedure σ Text).Known := fun command _ => known_ok command

theorem known_session : (session : Procedure σ Session).Known := fun _ s => known_ok s.session

theorem known_update {τ : Type} {part : Session → τ} {put : Session → τ → Session} {u : Update τ α} (hu : u.Known) :
    (update part put u : Procedure σ α).Known := fun _ s => hu (part s.session)

theorem known_declare (name : Text) (parser : ListParser) : (declare name parser : Procedure σ Unit).Known :=
  fun _ _ => known_ok ()

theorem known_nameOf (marked : Bool) (raw : Text) : (nameOf marked raw : Procedure σ Text).Known :=
  known_session.bind fun s => known_caller.bind fun command => known_ofExcept (s.known_name command marked raw)

variable [ArgumentSupply σ] [ArgumentSupply.Impartial σ]

theorem known_argument : (argument : Procedure σ Text).Known := fun command s =>
  ArgumentSupply.Impartial.mandatory command s.source

theorem known_optional (fallback : Text) : (optional fallback : Procedure σ Text).Known := fun command s =>
  ArgumentSupply.Impartial.optional command fallback s.source

omit [ArgumentSupply.Impartial σ] in
theorem known_star : (star : Procedure σ Bool).Known := fun _ _ => known_ok _

theorem known_name (marked : Bool) : (name marked : Procedure σ Text).Known :=
  known_argument.bind fun raw => known_nameOf marked raw

theorem known_counter : (counter : Procedure σ Text).Known :=
  known_argument.bind fun raw => known_session.bind fun s =>
    (known_ofExcept (s.counters.known_place raw.trim)).bind fun _ => known_pure raw.trim

theorem known_integer : (integer : Procedure σ Number).Known :=
  known_argument.bind fun text => known_session.bind fun s => known_ofExcept (s.known_integer text)

theorem known_number : (number : Procedure σ Number).Known :=
  known_argument.bind fun text => known_ofExcept (Number.known_leading text)

end Procedure

/-! ## Built-in commands and list parsers -/

open Procedure

variable {σ : Type} [ArgumentSupply σ] [ArgumentSupply.Impartial σ]

theorem CounterCommand.known_run (c : CounterCommand) : (c.run : Procedure σ Unit).Known := by
  cases c with
  | new =>
    have hcreate : ∀ name parent, (discard (changeCounters (Counters.create name parent 0)) :
        Procedure σ Unit).Known := fun name parent =>
      (known_update (Counters.known_create name parent 0)).bind fun _ => known_pure ()
    refine known_argument.bind fun raw => ?_
    split
    · exact known_caller.bind fun command => known_fail_bind rfl _
    · refine (known_nameOf false raw).bind fun name => (known_optional []).bind fun above => ?_
      split
      · exact hcreate name none
      · exact ((known_nameOf false above).bind fun a => known_pure (some a)).bind fun parent => hcreate name parent
  | set =>
    exact known_counter.bind fun name => known_number.bind fun value => known_update (Counters.known_set name value)
  | add =>
    exact known_counter.bind fun name => known_number.bind fun delta => known_update (Counters.known_add name delta)
  | step => exact known_counter.bind fun name => known_update (Counters.known_step name)
  | define =>
    exact known_counter.bind fun name => known_integer.bind fun value => known_update (Counters.known_set name value)
  | within =>
    refine known_star.bind fun starred => known_counter.bind fun name => known_counter.bind fun above => ?_
    exact known_update (Counters.known_attach name above _)
  | without =>
    refine known_counter.bind fun name => known_counter.bind fun above => ?_
    exact known_update (Counters.known_detach name above)

theorem FlagCommand.known_run (space : FlagSpace) (c : FlagCommand) : (c.run space : Procedure σ Unit).Known := by
  cases c with
  | new strict => exact (known_name false).bind fun flag => known_update (Flags.known_create space flag strict)
  | set value =>
    cases value with
    | some value => exact (known_name false).bind fun flag => known_update (Flags.known_set space flag value)
    | none =>
      refine (known_name false).bind fun flag => known_argument.bind fun text => ?_
      refine (known_ofExcept (Flags.known_value text.trim)).bind fun value => ?_
      exact known_update (Flags.known_set space flag value)

theorem ListCommand.known_run (c : ListCommand) : (c.run : Procedure σ Unit).Known := by
  cases c with
  | add =>
    refine (known_name false).bind fun list => known_argument.bind fun item => ?_
    exact (known_update (Lists.known_create list false)).bind fun _ => known_update (Lists.known_change list _)
  | remove =>
    refine (known_name false).bind fun list => known_argument.bind fun item => ?_
    exact known_update (Lists.known_change list _)

theorem known_declareParser : (declareParser : Procedure σ Unit).Known :=
  known_star.bind fun readsHandler => (known_name true).bind fun parser => known_argument.bind fun separator =>
    known_declare parser ⟨separator, readsHandler⟩

theorem Report.known_run [Memory] (r : Report) : (r.run : Procedure σ Expansion).Known := by
  cases r with
  | format f =>
    refine known_counter.bind fun name => known_session.bind fun s => ?_
    refine (known_ofExcept (s.counters.known_value name)).bind fun value => ?_
    exact (known_ofExcept (f.known_apply value)).bind fun numeral => known_pure _
  | value =>
    refine known_counter.bind fun name => known_session.bind fun s => ?_
    exact (known_ofExcept (s.counters.known_value name)).bind fun value => known_pure _
  | number => exact known_number.bind fun n => known_pure _
  | romanNumeral =>
    refine known_number.bind fun n => ?_
    exact (known_ofExcept (Numeral.Format.known_apply _ n)).bind fun numeral => known_pure _
  | loop =>
    refine (known_name false).bind fun list => known_session.bind fun s => ?_
    exact (known_ofExcept (s.lists.known_get list)).bind fun items => known_pure _
  | loopWith =>
    refine (known_name true).bind fun handler => (known_name false).bind fun list => known_session.bind fun s => ?_
    exact (known_ofExcept (s.lists.known_get list)).bind fun items => known_pure _

theorem Test.known_holds (t : Test) : (t.holds : Procedure σ Bool).Known := by
  cases t with
  | flag space negate =>
    refine (known_name false).bind fun flag => known_session.bind fun s => ?_
    exact (known_ofExcept (s.flags.known_get space flag)).bind fun value => known_pure _
  | counterDefined => exact (known_name false).bind fun counter => known_session.bind fun s => known_pure _
  | equalTexts => exact known_argument.bind fun a => known_argument.bind fun b => known_pure _
  | empty trim negate => exact known_argument.bind fun text => known_pure _
  | compare relation =>
    cases relation with
    | some relation => exact known_integer.bind fun a => known_integer.bind fun b => known_pure _
    | none =>
      refine known_integer.bind fun a => known_argument.bind fun symbol => known_integer.bind fun b => ?_
      cases Relation.ofSymbol? symbol with
      | some relation => exact known_pure _
      | none => exact known_ofExcept (known_error rfl)
  | parity p => exact known_integer.bind fun n => known_pure _
  | inList =>
    refine known_argument.bind fun item => (known_name false).bind fun list => known_session.bind fun s => ?_
    exact known_ofExcept (s.lists.known_has list item)

theorem Test.known_run (t : Test) : (t.run : Procedure σ Expansion).Known := by
  refine t.known_holds.bind fun condition => known_argument.bind fun ifTrue => ?_
  exact known_argument.bind fun ifFalse => known_pure _

theorem Command.known_run [Memory] (c : Command) : (c.run : Procedure σ Expansion).Known := by
  cases c with
  | counter c => exact c.known_run.bind fun _ => known_pure _
  | flag space c => exact (c.known_run space).bind fun _ => known_pure _
  | list c => exact c.known_run.bind fun _ => known_pure _
  | declareParser => exact known_declareParser.bind fun _ => known_pure _
  | report r => exact r.known_run
  | test t => exact t.known_run

theorem ListParser.known_run (p : ListParser) : (p.run : Procedure σ Expansion).Known := by
  have hsplit : ∀ handler, (argument >>= fun text => Procedure.ofExcept (Separated.items p.separator text) >>=
      fun items => pure (.tokens (handed handler items)) : Procedure σ Expansion).Known := fun handler =>
    known_argument.bind fun text => (known_ofExcept (Separated.known_items p.separator text)).bind fun items =>
      known_pure _
  unfold ListParser.run
  cases p.readsHandler with
  | true => exact (known_name true).bind hsplit
  | false => exact hsplit standardHandler

/-! ## Names -/

theorem displayedCounter?_eq_some_iff {name counter : Text} :
    displayedCounter? name = some counter ↔ name = "the".toList ++ counter := by
  unfold displayedCounter?
  split
  · simp
  · constructor
    · intro h
      cases h
    · rintro rfl
      simp_all

/-- A counter that is there can be displayed. -/
theorem Counters.exists_render_of_contains {cs : Counters} {name : Text} (h : cs.contains name = true) :
    ∃ rendering, cs.render name = .ok rendering := by
  obtain ⟨i, hi⟩ := exists_place_of_contains h
  refine ⟨cs.renderAt cs.size i, ?_⟩
  rw [render, hi]
  rfl

namespace Session

/-- The name stands for nothing: it is that of no built-in command and of no list parser, and it displays no counter. -/
structure Unknown (s : Session) (name : Text) : Prop where
  builtIn : Command.lookup? name = none
  parser : s.parser? name = none
  display : ∀ counter, name = "the".toList ++ counter → s.counters.contains counter = false

variable {s : Session} {name : Text} {source : σ}

section Display

omit [ArgumentSupply.Impartial σ]

/-- A name of no other command is that of a counter to display. -/
theorem run_eq_display [Memory] (hc : Command.lookup? name = none) (hp : s.parser? name = none) :
    s.run name source = (display name).run ('\\' :: name) ⟨s, source⟩ := by
  simp only [run, perform, hc, run_session_bind, hp]

/-- A counter is displayed without reading anything. -/
theorem run_of_display [Memory] {counter rendering : Text} (hc : Command.lookup? name = none)
    (hp : s.parser? name = none) (hname : name = "the".toList ++ counter)
    (hcounter : s.counters.contains counter = true) (hrender : s.counters.render counter = .ok rendering) :
    s.run name source = (.ok (.math rendering), ⟨s, source⟩) := by
  rw [run_eq_display hc hp]
  simp only [display, run_session_bind, displayedCounter?_eq_some_iff.2 hname, hcounter, if_true, hrender]
  rfl

/-- A name that stands for nothing is refused without reading anything. -/
theorem run_of_unknown [Memory] (h : s.Unknown name) :
    s.run name source = (.error (.unknownCommand ('\\' :: name)), ⟨s, source⟩) := by
  rw [run_eq_display h.builtIn h.parser]
  cases hname : displayedCounter? name with
  | none =>
    simp only [display, run_session_bind, hname]
    rfl
  | some counter =>
    have hcounter := h.display counter (displayedCounter?_eq_some_iff.1 hname)
    simp only [display, run_session_bind, hname, hcounter, Bool.false_eq_true, if_false]
    rfl

end Display

theorem unknown_of_run [Memory] {command : Text} (h : (s.run name source).1 = .error (.unknownCommand command)) :
    s.Unknown name := by
  cases hc : Command.lookup? name with
  | some c =>
    rw [run_of_lookup? hc] at h
    cases c.known_run _ _ _ h
  | none =>
    cases hp : s.parser? name with
    | some p =>
      have hrun := run_perform_declared hc hp ('\\' :: name) source
      rw [run, hrun] at h
      cases p.known_run _ _ _ h
    | none =>
      refine ⟨hc, hp, fun counter hname => ?_⟩
      -- a counter that is there would have been displayed
      rw [← Bool.not_eq_true]
      intro hcounter
      obtain ⟨rendering, hrender⟩ := Counters.exists_render_of_contains hcounter
      rw [run_of_display hc hp hname hcounter hrender] at h
      cases h

/-- On every text, exactly the names that stand for nothing are unknown commands, and then nothing has been read.  Nor is
anything read when a counter is displayed, and its display never fails. -/
theorem unknownCommand_iff [Memory] (s : Session) (name text : Text) :
    ((∃ command, (s.runText name text).1 = .error (.unknownCommand command)) ↔ s.Unknown name) ∧
      (s.Unknown name →
        s.run name (Scanner.mk text) = (.error (.unknownCommand ('\\' :: name)), ⟨s, ⟨text⟩⟩)) ∧
      (Command.lookup? name = none → s.parser? name = none → ∀ counter, name = "the".toList ++ counter →
        s.counters.contains counter = true → ∃ rendering, s.counters.render counter = .ok rendering ∧
          s.run name (Scanner.mk text) = (.ok (.math rendering), ⟨s, ⟨text⟩⟩)) := by
  refine ⟨⟨?_, fun h => ?_⟩, run_of_unknown, fun hc hp counter hname hcounter => ?_⟩
  · rintro ⟨command, h⟩
    exact unknown_of_run h
  · refine ⟨'\\' :: name, ?_⟩
    rw [runText, run_of_unknown h]
  · obtain ⟨rendering, hrender⟩ := Counters.exists_render_of_contains hcounter
    exact ⟨rendering, hrender, run_of_display hc hp hname hcounter hrender⟩

/-- A name that is too long for a display, the display, and a list parser in its place. -/
theorem unknownCommand_thepages :
    let _ : Memory := .upTo 4096
    let s := ((fresh .standard).runText "newcounter".toList "{page}".toList).2
    let text := "{a}".toList
    s.run "thepages".toList (Scanner.mk text) = (.error (.unknownCommand "\\thepages".toList), ⟨s, ⟨text⟩⟩) ∧
      s.run "thepage".toList (Scanner.mk text) = (.ok (.math ['0']), ⟨s, ⟨text⟩⟩) ∧
      ¬ ∃ command, ((s.declare "thepage".toList ⟨[','], false⟩).runText "thepage".toList text).1 =
        .error (.unknownCommand command) := by
  intro _ s text
  refine ⟨?_, ?_, fun h => ?_⟩
  · have hdisplay : ∀ counter, "thepages".toList = "the".toList ++ counter → s.counters.contains counter = false := by
      intro counter hname
      have hrest : "the".toList ++ "pages".toList = "the".toList ++ counter := hname
      rw [← List.append_cancel_left hrest]
      rfl
    exact (unknownCommand_iff s _ text).2.1 ⟨by decide, rfl, hdisplay⟩
  · have hrender : s.counters.render "page".toList = .ok ['0'] := rfl
    obtain ⟨rendering, hrendering, hrun⟩ :=
      (unknownCommand_iff s "thepage".toList text).2.2 (by decide) rfl "page".toList rfl rfl
    cases hrender.symm.trans hrendering
    exact hrun
  · cases ((unknownCommand_iff _ _ text).1.1 h).parser

end Session
end DocState
