import DocState.Proofs.Counters.Changes
import DocState.Proofs.Effects.Stores
import DocState.Proofs.Refusal.Commands

/-!
# What a command changes

Every command has its part of the session, and most of them have one name in it, which is read from the arguments
before anything is changed.

* `Procedure.Leaves Q p command before`: run from this situation, the procedure leaves a session with `Q`.
* `Session.Given`, `Session.GivenCounter`: the next argument spells a name, or names a counter.
* `Command.Effect`: the changes that a built-in command can make, with the names that it has read.
* `Command.effect_run`, `effect_perform`: every run makes one of these changes, or none.
* `Command.Confined`, `Session.confined_run`: what is left as it was.
-/

namespace DocState

open Procedure

variable {σ α β : Type}

/-! ## What a procedure leaves -/

namespace Procedure

variable {p x : Procedure σ α} {f : α → Procedure σ β} {Q : Session → Prop} {command : Text} {s : Session} {source : σ}

/-- Run from this situation, the procedure leaves a session with `Q`, whatever the result. -/
def Leaves (Q : Session → Prop) (p : Procedure σ α) (command : Text) (before : Situation σ) : Prop :=
  Q (p.run command before).2.session

theorem ReadOnly.leaves (h : p.ReadOnly) (hQ : Q s) : p.Leaves Q command ⟨s, source⟩ := by
  unfold Leaves
  rw [h]
  exact hQ

/-- What follows a reading is run on the same session, and knows what was read from where. -/
theorem Leaves.after_reading (hx : x.ReadOnly) (hQ : Q s)
    (hf : ∀ a rest, x.run command ⟨s, source⟩ = (.ok a, ⟨s, rest⟩) → (f a).Leaves Q command ⟨s, rest⟩) :
    (x >>= f).Leaves Q command ⟨s, source⟩ := by
  have hsame := hx command ⟨s, source⟩
  unfold Leaves
  rw [run_bind]
  rcases hrun : x.run command ⟨s, source⟩ with ⟨result, ⟨session, rest⟩⟩
  rw [hrun] at hsame
  obtain rfl : session = s := hsame
  cases result with
  | ok a => exact hf a rest hrun
  | error e => exact hQ

theorem Leaves.then_pure {before : Situation σ} (hx : x.Leaves Q command before) (g : α → β) :
    (x >>= fun a => pure (g a)).Leaves Q command before := by
  unfold Leaves at hx ⊢
  rw [run_bind]
  rcases hrun : x.run command before with ⟨result, after⟩
  rw [hrun] at hx
  cases result <;> exact hx

theorem leaves_changeCounters {u : Update Counters α} {counters : Counters} (hafter : u.after s.counters = counters)
    (hQ : Q { s with counters }) : (changeCounters u : Procedure σ α).Leaves Q command ⟨s, source⟩ := by
  subst hafter
  exact hQ

theorem leaves_changeFlags {u : Update Flags α} {flags : Flags} (hafter : u.after s.flags = flags)
    (hQ : Q { s with flags }) : (changeFlags u : Procedure σ α).Leaves Q command ⟨s, source⟩ := by
  subst hafter
  exact hQ

theorem leaves_changeLists {u : Update Lists α} {lists : Lists} (hafter : u.after s.lists = lists)
    (hQ : Q { s with lists }) : (changeLists u : Procedure σ α).Leaves Q command ⟨s, source⟩ := by
  subst hafter
  exact hQ

end Procedure

/-! ## What the arguments name -/

section Names

variable [ArgumentSupply σ] {s : Session} {command : Text} {source rest : σ} {name : Text} {marked : Bool}

/-- The next argument spells this name. -/
def Session.Given (s : Session) (command : Text) (source : σ) (marked : Bool) (name : Text) : Prop :=
  ∃ raw, (ArgumentSupply.mandatory command source).1 = .ok raw ∧ s.name command marked raw = .ok name

/-- The next argument names the counter at this place. -/
def Session.GivenCounter (s : Session) (command : Text) (source : σ) (i : Nat) : Prop :=
  ∃ raw, (ArgumentSupply.mandatory command source).1 = .ok raw ∧ s.counters.place raw.trim = .ok i

namespace Procedure

theorem run_argument_eq_ok {raw : Text} {after : Situation σ}
    (h : (argument : Procedure σ Text).run command ⟨s, source⟩ = (.ok raw, after)) :
    (ArgumentSupply.mandatory command source).1 = .ok raw := congrArg Prod.fst h

/-- A procedure that begins with an argument and answers has read one. -/
theorem exists_argument_of_run_eq_ok {f : Text → Procedure σ α} {a : α} {after : Situation σ}
    (h : (argument >>= f).run command ⟨s, source⟩ = (.ok a, after)) :
    ∃ raw, (ArgumentSupply.mandatory command source).1 = .ok raw ∧
      (f raw).run command ⟨s, (ArgumentSupply.mandatory command source).2⟩ = (.ok a, after) := by
  have hargument : (argument : Procedure σ Text).run command ⟨s, source⟩ =
      ((ArgumentSupply.mandatory command source).1, ⟨s, (ArgumentSupply.mandatory command source).2⟩) := rfl
  rw [run_bind, hargument] at h
  cases hraw : (ArgumentSupply.mandatory command source).1 with
  | error e =>
    rw [hraw] at h
    cases h
  | ok raw =>
    rw [hraw] at h
    exact ⟨raw, rfl, h⟩

theorem given_of_run_name (h : (Procedure.name marked).run command ⟨s, source⟩ = (.ok name, ⟨s, rest⟩)) :
    s.Given command source marked name := by
  obtain ⟨raw, hraw, hname⟩ := exists_argument_of_run_eq_ok h
  exact ⟨raw, hraw, congrArg Prod.fst hname⟩

theorem givenCounter_of_run_counter (h : (counter : Procedure σ Text).run command ⟨s, source⟩ = (.ok name, ⟨s, rest⟩))
    {i : Nat} (hi : s.counters.place name = .ok i) : s.GivenCounter command source i := by
  obtain ⟨raw, hraw, hcounter⟩ := exists_argument_of_run_eq_ok h
  change (Procedure.ofExcept (s.counters.place raw.trim) >>= fun _ => pure raw.trim : Procedure σ Text).run command _ =
    _ at hcounter
  cases hplace : s.counters.place raw.trim with
  | error e =>
    rw [hplace] at hcounter
    cases hcounter
  | ok j =>
    rw [hplace] at hcounter
    obtain rfl : raw.trim = name := Except.ok.inj (congrArg Prod.fst hcounter)
    exact ⟨raw, hraw, hi⟩

end Procedure

end Names

/-! ## The changes of a command -/

/-- The commands that give a counter another value and reach no other counter. -/
def CounterCommand.assigns : CounterCommand → Bool
  | .set | .add | .define => true
  | .new | .step | .within | .without => false

section Effects

variable [ArgumentSupply σ]

/-- What a built-in command that reads from this source can make of the session: nothing, or one change of its own
part. -/
inductive Command.Effect (s : Session) (command : Text) (source : σ) : Command → Session → Prop
  | unchanged (c : Command) : Effect s command source c s
  | create {name : Text} {parent : Option Nat} (hname : s.Given command source false name) :
    Effect s command source (.counter .new) { s with counters := s.counters.grow ⟨name, 0, parent, [], .plain⟩ }
  | assign {c : CounterCommand} {i : Nat} (f : Number → Number) (hassigns : c.assigns = true)
    (hi : s.GivenCounter command source i) :
    Effect s command source (.counter c) { s with counters := s.counters.revalue (Counters.only i f) }
  | step (f : Nat → Number → Number) :
    Effect s command source (.counter .step) { s with counters := s.counters.revalue f }
  | link {c : CounterCommand} (hlinks : c = .within ∨ c = .without) (i : Nat) (parent : Option Nat)
    (display : Display → Display) :
    Effect s command source (.counter c) { s with counters := s.counters.rewire i parent display }
  | flag {space : FlagSpace} {c : FlagCommand} {name : Text} (value : Bool)
    (hname : s.Given command source false name) :
    Effect s command source (.flag space c) { s with flags := ⟨s.flags.table.insert (space, name) value⟩ }
  | list {c : ListCommand} {name : Text} (items : List Text) (hname : s.Given command source false name) :
    Effect s command source (.list c) { s with lists := ⟨s.lists.table.insert name items⟩ }
  | declare {name : Text} (parser : ListParser)
    (hname : s.Given command (ArgumentSupply.star source).2 true name) :
    Effect s command source .declareParser (s.declare name parser)

variable {s : Session} {command : Text} {source rest : σ} {name : Text}

theorem CounterCommand.effect_run (c : CounterCommand) (s : Session) (command : Text) (source : σ) :
    (c.run : Procedure σ Unit).Leaves (Command.Effect s command source (.counter c)) command ⟨s, source⟩ := by
  have hsame : Command.Effect s command source (.counter c) s := .unchanged _
  cases c with
  | new =>
    have hcreate : ∀ name parent rest, s.Given command source false name →
        (discard (changeCounters (Counters.create name parent 0)) : Procedure σ Unit).Leaves
          (Command.Effect s command source (.counter .new)) command ⟨s, rest⟩ := by
      intro name parent rest hname
      refine Leaves.then_pure (x := changeCounters (Counters.create name parent 0)) ?_ fun _ => ()
      obtain hafter | ⟨above, hafter⟩ := Counters.after_create name parent 0 s.counters
      · exact leaves_changeCounters hafter hsame
      · exact leaves_changeCounters hafter (.create hname)
    refine Leaves.after_reading readOnly_argument hsame fun raw rest hraw => ?_
    have hread := run_argument_eq_ok hraw
    split
    · exact (readOnly_caller.bind fun command => readOnly_fail_bind _ _).leaves hsame
    · refine Leaves.after_reading (readOnly_nameOf false raw) hsame fun name rest hname => ?_
      have hgiven : s.Given command source false name := ⟨raw, hread, congrArg Prod.fst hname⟩
      refine Leaves.after_reading (readOnly_optional []) hsame fun above rest _ => ?_
      split
      · exact hcreate name none rest hgiven
      · refine Leaves.after_reading ((readOnly_nameOf false above).map some) hsame fun parent rest _ => ?_
        exact hcreate name parent rest hgiven
  | set =>
    refine Leaves.after_reading readOnly_counter hsame fun name rest hname => ?_
    refine Leaves.after_reading readOnly_number hsame fun value rest _ => ?_
    obtain hafter | ⟨i, hi, hafter⟩ := Counters.after_of_run_place (Counters.run_set name value s.counters)
    · exact leaves_changeCounters hafter hsame
    · exact leaves_changeCounters hafter (.assign (fun _ => value) rfl (givenCounter_of_run_counter hname hi))
  | add =>
    refine Leaves.after_reading readOnly_counter hsame fun name rest hname => ?_
    refine Leaves.after_reading readOnly_number hsame fun delta rest _ => ?_
    obtain hafter | ⟨i, hi, hafter⟩ := Counters.after_of_run_place (Counters.run_add name delta s.counters)
    · exact leaves_changeCounters hafter hsame
    · exact leaves_changeCounters hafter (.assign (·.plus delta) rfl (givenCounter_of_run_counter hname hi))
  | step =>
    refine Leaves.after_reading readOnly_counter hsame fun name rest _ => ?_
    obtain hafter | ⟨i, -, hafter⟩ := Counters.after_of_run_place (Counters.run_step name s.counters)
    · exact leaves_changeCounters hafter hsame
    · obtain ⟨f, hf⟩ := Counters.exists_stepAt_eq_revalue s.counters.size i s.counters
      exact leaves_changeCounters (hafter.trans hf) (.step f)
  | define =>
    refine Leaves.after_reading readOnly_counter hsame fun name rest hname => ?_
    refine Leaves.after_reading readOnly_integer hsame fun value rest _ => ?_
    obtain hafter | ⟨i, hi, hafter⟩ := Counters.after_of_run_place (Counters.run_set name value s.counters)
    · exact leaves_changeCounters hafter hsame
    · exact leaves_changeCounters hafter (.assign (fun _ => value) rfl (givenCounter_of_run_counter hname hi))
  | within =>
    refine Leaves.after_reading readOnly_star hsame fun starred rest _ => ?_
    refine Leaves.after_reading readOnly_counter hsame fun name rest _ => ?_
    refine Leaves.after_reading readOnly_counter hsame fun above rest _ => ?_
    obtain hafter | ⟨i, parent, shown, hafter⟩ := Counters.after_attach name above (!starred) s.counters
    · exact leaves_changeCounters hafter hsame
    · exact leaves_changeCounters hafter (.link (.inl rfl) i parent shown)
  | without =>
    refine Leaves.after_reading readOnly_counter hsame fun name rest _ => ?_
    refine Leaves.after_reading readOnly_counter hsame fun above rest _ => ?_
    obtain hafter | ⟨i, parent, shown, hafter⟩ := Counters.after_detach name above s.counters
    · exact leaves_changeCounters hafter hsame
    · exact leaves_changeCounters hafter (.link (.inr rfl) i parent shown)

theorem FlagCommand.effect_run (space : FlagSpace) (c : FlagCommand) (s : Session) (command : Text) (source : σ) :
    (c.run space : Procedure σ Unit).Leaves (Command.Effect s command source (.flag space c)) command ⟨s, source⟩ := by
  have hsame : Command.Effect s command source (.flag space c) s := .unchanged _
  have hset : ∀ flag value rest, s.Given command source false flag →
      (changeFlags (Flags.set space flag value) : Procedure σ Unit).Leaves
        (Command.Effect s command source (.flag space c)) command ⟨s, rest⟩ := by
    intro flag value rest hflag
    obtain hafter | hafter := Flags.after_set space flag s.flags value
    · exact leaves_changeFlags hafter hsame
    · exact leaves_changeFlags hafter (.flag value hflag)
  cases c with
  | new strict =>
    refine Leaves.after_reading (readOnly_name false) hsame fun flag rest hflag => ?_
    obtain hafter | hafter := Flags.after_create space flag s.flags strict
    · exact leaves_changeFlags hafter hsame
    · exact leaves_changeFlags hafter (.flag false (given_of_run_name hflag))
  | set value =>
    cases value with
    | some value =>
      refine Leaves.after_reading (readOnly_name false) hsame fun flag rest hflag => ?_
      exact hset flag value rest (given_of_run_name hflag)
    | none =>
      refine Leaves.after_reading (readOnly_name false) hsame fun flag rest hflag => ?_
      refine Leaves.after_reading readOnly_argument hsame fun text rest _ => ?_
      refine Leaves.after_reading (readOnly_ofExcept _) hsame fun value rest _ => ?_
      exact hset flag value rest (given_of_run_name hflag)

theorem ListCommand.effect_run (c : ListCommand) (s : Session) (command : Text) (source : σ) :
    (c.run : Procedure σ Unit).Leaves (Command.Effect s command source (.list c)) command ⟨s, source⟩ := by
  have hsame : Command.Effect s command source (.list c) s := .unchanged _
  cases c with
  | add =>
    refine Leaves.after_reading (readOnly_name false) hsame fun list rest hlist => ?_
    refine Leaves.after_reading readOnly_argument hsame fun item rest _ => ?_
    rw [changeLists_bind]
    obtain hafter | ⟨items, hafter⟩ := Lists.after_add list s.lists item
    · exact leaves_changeLists hafter hsame
    · exact leaves_changeLists hafter (.list items (given_of_run_name hlist))
  | remove =>
    refine Leaves.after_reading (readOnly_name false) hsame fun list rest hlist => ?_
    refine Leaves.after_reading readOnly_argument hsame fun item rest _ => ?_
    obtain hafter | ⟨items, hafter⟩ := Lists.after_change list s.lists (·.erase item)
    · exact leaves_changeLists hafter hsame
    · exact leaves_changeLists hafter (.list items (given_of_run_name hlist))

theorem effect_declareParser (s : Session) (command : Text) (source : σ) :
    (declareParser : Procedure σ Unit).Leaves (Command.Effect s command source .declareParser) command
      ⟨s, source⟩ := by
  have hsame : Command.Effect s command source .declareParser s := .unchanged _
  refine Leaves.after_reading readOnly_star hsame fun readsHandler rest hstar => ?_
  obtain rfl : (ArgumentSupply.star source).2 = rest := congrArg (fun run => run.2.source) hstar
  refine Leaves.after_reading (readOnly_name true) hsame fun name rest hname => ?_
  refine Leaves.after_reading readOnly_argument hsame fun separator rest _ => ?_
  exact Command.Effect.declare ⟨separator, readsHandler⟩ (given_of_run_name hname)

/-- Every run of a built-in command makes one of its changes, or none. -/
theorem Command.effect_run [Memory] (c : Command) (s : Session) (command : Text) (source : σ) :
    (c.run : Procedure σ Expansion).Leaves (Effect s command source c) command ⟨s, source⟩ := by
  cases c with
  | counter c => exact (c.effect_run s command source).then_pure fun _ => Expansion.nothing
  | flag space c => exact (c.effect_run space s command source).then_pure fun _ => Expansion.nothing
  | list c => exact (c.effect_run s command source).then_pure fun _ => Expansion.nothing
  | declareParser => exact (effect_declareParser s command source).then_pure fun _ => Expansion.nothing
  | report r => exact r.readOnly_run.leaves (.unchanged _)
  | test t => exact t.readOnly_run.leaves (.unchanged _)

end Effects

section Runs

variable [ArgumentSupply σ] (s : Session) (name : Text) (source : σ)

/-- A run of a built-in command makes one of its changes. -/
theorem Session.effect_run [Memory] {c : Command} (hc : Command.lookup? name = some c) :
    Command.Effect s ('\\' :: name) source c (s.run name source).2.session := by
  have hrun : (perform name : Procedure σ Expansion) = c.run := by rw [perform, hc]
  rw [Session.run, hrun]
  exact c.effect_run s ('\\' :: name) source

/-- A call of a list parser, and the display of a counter, change nothing. -/
theorem Session.run_of_lookup?_eq_none [Memory] (hc : Command.lookup? name = none) :
    (s.run name source).2.session = s := by
  have hreads : (perform name : Procedure σ Expansion).ReadOnly := by
    rw [perform, hc]
    refine readOnly_session.bind fun s => ?_
    cases s.parser? name with
    | some parser => exact parser.readOnly_run
    | none => exact readOnly_display name
  exact hreads ('\\' :: name) ⟨s, source⟩

end Runs

/-! ## What is left as it was -/

section Confined

variable [ArgumentSupply σ]

/-- The part of the session that a command may change, and what it leaves as it was in that part: `s` is the session
before it and `s'` the one after it, and the command has read from `source`.  No command stands for a call of a list
parser and for the display of a counter. -/
def Confined (s : Session) (command : Text) (source : σ) (s' : Session) : Option Command → Prop
  | some (.counter c) => s' = { s with counters := s'.counters } ∧
    (c.assigns = true → s'.counters = s.counters ∨ ∃ i, ∃ f : Number → Number, s.GivenCounter command source i ∧
      s'.counters = s.counters.modify i fun counter => { counter with value := f counter.value })
  | some (.flag space _) => s' = { s with flags := s'.flags } ∧
    (s'.flags = s.flags ∨ ∃ flag, s.Given command source false flag ∧
      s.flags.table.AgreeExcept (space, flag) s'.flags.table)
  | some (.list _) => s' = { s with lists := s'.lists } ∧
    (s'.lists = s.lists ∨ ∃ list, s.Given command source false list ∧
      s.lists.table.AgreeExcept list s'.lists.table)
  | some .declareParser => s' = { s with parsers := s'.parsers } ∧
    (s'.parsers = s.parsers ∨ ∃ parser, s.Given command (ArgumentSupply.star source).2 true parser ∧
      s.parsers.AgreeExcept parser s'.parsers)
  | some (.report _) | some (.test _) | none => s' = s

variable {s s' : Session} {command : Text} {source : σ}

theorem Command.Effect.options_eq {c : Command} (h : Effect s command source c s') : s'.options = s.options := by
  cases h <;> rfl

theorem Command.Effect.confined {c : Command} (h : Effect s command source c s') :
    Confined s command source s' (some c) := by
  cases h with
  | unchanged c =>
    cases c with
    | counter c => exact ⟨rfl, fun _ => .inl rfl⟩
    | flag space c => exact ⟨rfl, .inl rfl⟩
    | list c => exact ⟨rfl, .inl rfl⟩
    | declareParser => exact ⟨rfl, .inl rfl⟩
    | report r => rfl
    | test t => rfl
  | create hname => exact ⟨rfl, nofun⟩
  | assign f hassigns hi => exact ⟨rfl, fun _ => .inr ⟨_, f, hi, (Counters.modify_value _ f).symm⟩⟩
  | step f => exact ⟨rfl, nofun⟩
  | link hlinks i parent display => exact ⟨rfl, by rcases hlinks with rfl | rfl <;> exact nofun⟩
  | flag value hname => exact ⟨rfl, .inr ⟨_, hname, Table.agreeExcept_insert _ _ _⟩⟩
  | list items hname => exact ⟨rfl, .inr ⟨_, hname, Table.agreeExcept_insert _ _ _⟩⟩
  | declare parser hname => exact ⟨rfl, .inr ⟨_, hname, Table.agreeExcept_insert _ _ _⟩⟩

/-- A command, accepted or refused, leaves the options as they are, changes no part of the session but its own, and
there nothing but what its argument names. -/
theorem Session.confined_run [Memory] (s : Session) (name : Text) (source : σ) :
    let s' := (s.run name source).2.session
    s'.options = s.options ∧ Confined s ('\\' :: name) source s' (Command.lookup? name) := by
  intro s'
  cases hc : Command.lookup? name with
  | some c =>
    have heffect : Command.Effect s ('\\' :: name) source c s' := s.effect_run name source hc
    exact ⟨heffect.options_eq, heffect.confined⟩
  | none =>
    have hsame : s' = s := s.run_of_lookup?_eq_none name source hc
    exact ⟨congrArg Session.options hsame, hsame⟩

end Confined
end DocState
