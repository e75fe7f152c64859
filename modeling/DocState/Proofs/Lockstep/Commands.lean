import DocState.Command.Execution

/-!
# Two runs of a command in lockstep

A command is put together from a few steps: it reads arguments and names, looks at the session, and changes a part of
it.  Two runs of the command, on two sessions or on two kinds of sources, take the same steps in the same order as long
as each step answers the same in both.  What holds of two runs of any command then follows by induction on the steps.

* `Session.Alike s t`: the sessions differ at most in whether names are checked.
* `Procedure.Lockstep first p q`: the procedures take the same steps, all of them the same for alike sessions but for
  the check of names; they read mandatory arguments only, and a star if `first` and it is read before all else.
* `lockstep_perform`: all commands do so, except the one that creates counters, which reads an optional argument.
-/

namespace DocState

/-! ## Sessions that differ in the check of names -/

/-- The sessions agree on everything but whether names are checked. -/
structure Session.Alike (s t : Session) : Prop where
  counters : s.counters = t.counters
  flags : s.flags = t.flags
  lists : s.lists = t.lists
  parsers : s.parsers = t.parsers
  division : s.options.division = t.options.division

theorem Session.Alike.refl (s : Session) : s.Alike s := ⟨rfl, rfl, rfl, rfl, rfl⟩

theorem Session.Alike.integer {s t : Session} (h : s.Alike t) (text : Text) : s.integer text = t.integer text := by
  rw [Session.integer, Session.integer, h.division]

theorem Session.Alike.parser? {s t : Session} (h : s.Alike t) (name : Text) : s.parser? name = t.parser? name := by
  rw [Session.parser?, Session.parser?, h.parsers]

/-! ## Procedures in lockstep -/

namespace Procedure

variable {σ τ : Type} [ArgumentSupply σ] [ArgumentSupply τ]

/-- The procedures take the same steps. -/
inductive Lockstep : Bool → ∀ {α : Type}, Procedure σ α → Procedure τ α → Prop
  | ofExcept {first : Bool} {α : Type} (x : Except Error α) : Lockstep first (ofExcept x) (ofExcept x)
  | caller {first : Bool} : Lockstep first caller caller
  | argument {first : Bool} : Lockstep first argument argument
  | star : Lockstep true star star
  | nameOf {first : Bool} (marked : Bool) (raw : Text) : Lockstep first (nameOf marked raw) (nameOf marked raw)
  /-- What follows a look at the session does not depend on whether names are checked. -/
  | session {first : Bool} {α : Type} {f : Session → Procedure σ α} {g : Session → Procedure τ α}
    (h : ∀ s t, s.Alike t → Lockstep first (f s) (g t)) : Lockstep first (session >>= f) (session >>= g)
  | bind {first : Bool} {α β : Type} {x : Procedure σ α} {y : Procedure τ α} {f : α → Procedure σ β}
    {g : α → Procedure τ β} (hx : Lockstep first x y) (hf : ∀ a, Lockstep false (f a) (g a)) :
    Lockstep first (x >>= f) (y >>= g)
  | changeCounters {first : Bool} {α : Type} (u : Update Counters α) :
    Lockstep first (changeCounters u) (changeCounters u)
  | changeFlags {first : Bool} {α : Type} (u : Update Flags α) : Lockstep first (changeFlags u) (changeFlags u)
  | changeLists {first : Bool} {α : Type} (u : Update Lists α) : Lockstep first (changeLists u) (changeLists u)
  | declare {first : Bool} (name : Text) (parser : ListParser) :
    Lockstep first (declare name parser) (declare name parser)

variable {first : Bool} {α β : Type}

theorem lockstep_pure (a : α) : Lockstep first (pure a : Procedure σ α) (pure a : Procedure τ α) :=
  .ofExcept (.ok a)

theorem lockstep_fail (e : Error) : Lockstep first (fail e : Procedure σ α) (fail e : Procedure τ α) :=
  .ofExcept (.error e)

/-- What a look at the session answers may be used in what follows. -/
theorem Lockstep.look {view : Session → Except Error α} {f : α → Procedure σ β} {g : α → Procedure τ β}
    (hview : ∀ s t, s.Alike t → view s = view t) (hf : ∀ a, Lockstep false (f a) (g a)) :
    Lockstep first (Procedure.session >>= fun s => Procedure.ofExcept (view s) >>= f)
      (Procedure.session >>= fun s => Procedure.ofExcept (view s) >>= g) := by
  refine .session fun s t h => ?_
  rw [hview s t h]
  exact (Lockstep.ofExcept (view t)).bind hf

theorem lockstep_name (marked : Bool) :
    Lockstep first (name marked : Procedure σ Text) (name marked : Procedure τ Text) :=
  Lockstep.argument.bind fun raw => .nameOf marked raw

theorem lockstep_counter : Lockstep first (counter : Procedure σ Text) (counter : Procedure τ Text) := by
  have hplace : ∀ name (s t : Session), s.Alike t → s.counters.place name = t.counters.place name :=
    fun name s t h => by rw [h.counters]
  exact Lockstep.argument.bind fun raw => Lockstep.look (hplace raw.trim) fun _ => lockstep_pure raw.trim

theorem lockstep_integer : Lockstep first (integer : Procedure σ Number) (integer : Procedure τ Number) := by
  refine Lockstep.argument.bind fun text => .session fun s t h => ?_
  rw [h.integer]
  exact .ofExcept _

theorem lockstep_number : Lockstep first (number : Procedure σ Number) (number : Procedure τ Number) :=
  Lockstep.argument.bind fun text => .ofExcept (Number.leading text)

end Procedure

/-! ## Built-in commands -/

open Procedure

variable {σ τ : Type} [ArgumentSupply σ] [ArgumentSupply τ]

theorem CounterCommand.lockstep_run {c : CounterCommand} (hc : c ≠ .new) :
    Lockstep true (c.run : Procedure σ Unit) (c.run : Procedure τ Unit) := by
  cases c with
  | new => exact absurd rfl hc
  | set => exact lockstep_counter.bind fun name => lockstep_number.bind fun value => .changeCounters _
  | add => exact lockstep_counter.bind fun name => lockstep_number.bind fun delta => .changeCounters _
  | step => exact lockstep_counter.bind fun name => .changeCounters _
  | define => exact lockstep_counter.bind fun name => lockstep_integer.bind fun value => .changeCounters _
  | within =>
    refine Lockstep.star.bind fun starred => ?_
    exact lockstep_counter.bind fun name => lockstep_counter.bind fun above => .changeCounters _
  | without => exact lockstep_counter.bind fun name => lockstep_counter.bind fun above => .changeCounters _

theorem FlagCommand.lockstep_run (space : FlagSpace) (c : FlagCommand) :
    Lockstep true (c.run space : Procedure σ Unit) (c.run space : Procedure τ Unit) := by
  cases c with
  | new strict => exact (lockstep_name false).bind fun flag => .changeFlags _
  | set value =>
    cases value with
    | some value => exact (lockstep_name false).bind fun flag => .changeFlags _
    | none =>
      refine (lockstep_name false).bind fun flag => Lockstep.argument.bind fun text => ?_
      exact (Lockstep.ofExcept (Flags.value text.trim)).bind fun value => .changeFlags _

theorem ListCommand.lockstep_run (c : ListCommand) :
    Lockstep true (c.run : Procedure σ Unit) (c.run : Procedure τ Unit) := by
  cases c with
  | add =>
    refine (lockstep_name false).bind fun list => Lockstep.argument.bind fun item => ?_
    exact (Lockstep.changeLists (Lists.create list false)).bind fun _ => .changeLists (Lists.add list item)
  | remove => exact (lockstep_name false).bind fun list => Lockstep.argument.bind fun item => .changeLists _

theorem lockstep_declareParser :
    Lockstep true (declareParser : Procedure σ Unit) (declareParser : Procedure τ Unit) := by
  refine Lockstep.star.bind fun readsHandler => (lockstep_name true).bind fun parser => ?_
  exact Lockstep.argument.bind fun separator => .declare parser ⟨separator, readsHandler⟩

theorem Report.lockstep_run [Memory] (r : Report) :
    Lockstep true (r.run : Procedure σ Expansion) (r.run : Procedure τ Expansion) := by
  have hvalue : ∀ name (s t : Session), s.Alike t → s.counters.value name = t.counters.value name :=
    fun name s t h => by rw [h.counters]
  have hitems : ∀ list (s t : Session), s.Alike t → s.lists.get list = t.lists.get list :=
    fun list s t h => by rw [h.lists]
  cases r with
  | format f =>
    refine lockstep_counter.bind fun name => Lockstep.look (hvalue name) fun value => ?_
    exact (Lockstep.ofExcept (f.apply value)).bind fun numeral => lockstep_pure _
  | value => exact lockstep_counter.bind fun name => Lockstep.look (hvalue name) fun value => lockstep_pure _
  | number => exact lockstep_number.bind fun n => lockstep_pure _
  | romanNumeral =>
    refine lockstep_number.bind fun n => ?_
    exact (Lockstep.ofExcept (Numeral.Format.apply ⟨.roman, false⟩ n)).bind fun numeral => lockstep_pure _
  | loop => exact (lockstep_name false).bind fun list => Lockstep.look (hitems list) fun items => lockstep_pure _
  | loopWith =>
    refine (lockstep_name true).bind fun handler => (lockstep_name false).bind fun list => ?_
    exact Lockstep.look (hitems list) fun items => lockstep_pure _

theorem Test.lockstep_holds (t : Test) :
    Lockstep true (t.holds : Procedure σ Bool) (t.holds : Procedure τ Bool) := by
  cases t with
  | flag space negate =>
    have hvalue : ∀ flag (s t : Session), s.Alike t → s.flags.get space flag = t.flags.get space flag :=
      fun flag s t h => by rw [h.flags]
    exact (lockstep_name false).bind fun flag => Lockstep.look (hvalue flag) fun value => lockstep_pure _
  | counterDefined =>
    refine (lockstep_name false).bind fun counter => .session fun s t h => ?_
    rw [h.counters]
    exact lockstep_pure _
  | equalTexts => exact Lockstep.argument.bind fun a => Lockstep.argument.bind fun b => lockstep_pure _
  | empty trim negate => exact Lockstep.argument.bind fun text => lockstep_pure _
  | compare relation =>
    cases relation with
    | some relation => exact lockstep_integer.bind fun a => lockstep_integer.bind fun b => lockstep_pure _
    | none =>
      refine lockstep_integer.bind fun a => Lockstep.argument.bind fun symbol => lockstep_integer.bind fun b => ?_
      cases Relation.ofSymbol? symbol with
      | some relation => exact lockstep_pure _
      | none => exact lockstep_fail _
  | parity p => exact lockstep_integer.bind fun n => lockstep_pure _
  | inList =>
    refine Lockstep.argument.bind fun item => (lockstep_name false).bind fun list => .session fun s t h => ?_
    rw [h.lists]
    exact .ofExcept _

theorem Test.lockstep_run (t : Test) :
    Lockstep true (t.run : Procedure σ Expansion) (t.run : Procedure τ Expansion) := by
  refine t.lockstep_holds.bind fun condition => Lockstep.argument.bind fun ifTrue => ?_
  exact Lockstep.argument.bind fun ifFalse => lockstep_pure _

theorem Command.lockstep_run [Memory] {c : Command} (hc : c ≠ .counter .new) :
    Lockstep true (c.run : Procedure σ Expansion) (c.run : Procedure τ Expansion) := by
  cases c with
  | counter c =>
    have hnew : c ≠ .new := fun h => hc (congrArg Command.counter h)
    exact (CounterCommand.lockstep_run hnew).bind fun _ => lockstep_pure _
  | flag space c => exact (c.lockstep_run space).bind fun _ => lockstep_pure _
  | list c => exact c.lockstep_run.bind fun _ => lockstep_pure _
  | declareParser => exact lockstep_declareParser.bind fun _ => lockstep_pure _
  | report r => exact r.lockstep_run
  | test t => exact t.lockstep_run

/-! ## All commands -/

theorem ListParser.lockstep_run (p : ListParser) :
    Lockstep true (p.run : Procedure σ Expansion) (p.run : Procedure τ Expansion) := by
  have hsplit : ∀ {first} handler, Lockstep first
      (argument >>= fun text => Procedure.ofExcept (Separated.items p.separator text) >>=
        fun items => pure (.tokens (handed handler items)) : Procedure σ Expansion)
      (argument >>= fun text => Procedure.ofExcept (Separated.items p.separator text) >>=
        fun items => pure (.tokens (handed handler items)) : Procedure τ Expansion) := fun handler =>
    Lockstep.argument.bind fun text => (Lockstep.ofExcept _).bind fun items => lockstep_pure _
  unfold ListParser.run
  cases p.readsHandler with
  | true => exact (lockstep_name true).bind hsplit
  | false => exact hsplit standardHandler

theorem lockstep_display (name : Text) :
    Lockstep true (display name : Procedure σ Expansion) (display name : Procedure τ Expansion) := by
  refine .session fun s t h => ?_
  rw [h.counters]
  cases displayedCounter? name with
  | none => exact Lockstep.caller.bind fun command => lockstep_fail _
  | some counter =>
    show Lockstep true (if t.counters.contains counter then _ else _) (if t.counters.contains counter then _ else _)
    split
    · exact (Lockstep.ofExcept _).bind fun text => lockstep_pure _
    · exact Lockstep.caller.bind fun command => lockstep_fail _

theorem lockstep_perform [Memory] {name : Text} (hname : Command.lookup? name ≠ some (.counter .new)) :
    Lockstep true (perform name : Procedure σ Expansion) (perform name : Procedure τ Expansion) := by
  unfold perform
  cases hlookup : Command.lookup? name with
  | some command => exact Command.lockstep_run fun hnew => hname (hnew ▸ hlookup)
  | none =>
    refine .session fun s t h => ?_
    rw [h.parser?]
    cases t.parser? name with
    | some parser => exact parser.lockstep_run
    | none => exact lockstep_display name

/-- A command with one name in the table is called by no other. -/
theorem Command.eq_of_lookup? {c : Command} {name other : Text} (hother : ∀ entry ∈ named, entry.2 = c → entry.1 = other)
    (h : lookup? name = some c) : name = other := by
  obtain ⟨before, behind, hnamed, -⟩ := List.lookup_eq_some_iff.1 h
  have hmem : (name, c) ∈ named := hnamed ▸ List.mem_append_cons_self
  exact hother _ hmem rfl

theorem eq_newcounter_of_lookup? {name : Text} (h : Command.lookup? name = some (.counter .new)) :
    name = "newcounter".toList := Command.eq_of_lookup? (by decide) h

end DocState
