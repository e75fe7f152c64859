import DocState.Proofs.Effects.Commands

/-!
# What a command consumes

Between the arguments of a command stand look-ups, checks and computations, and any of them may refuse the command.  A
command that is not refused has read the same parts of its source in any session: they are fixed by the command, and a
test has read both of its branches, whichever it takes.

* `Slot`, `Slot.skipAll`: what is read at once, and the source behind several of them.
* `Procedure.Consumes slots p`: if `p` answers, it has read these slots and nothing else.  `Procedure.Consumes.bind`:
  slots add up.
* `Command.slots`, `Command.consumes_run`: the slots of a built-in command.
* `Command.branches?`, `Command.branches_run`: the branches of a test, read off its source.
* `Session.unread_run`: two sessions that answer a command leave the same unread and offer the same branches.
-/

namespace DocState

open Procedure

/-! ## Slots -/

/-- What a command reads at once. -/
inductive Slot
  | argument
  | optional
  | star
deriving DecidableEq, Repr

namespace Slot

variable {σ : Type} [ArgumentSupply σ]

/-- The source behind a slot. -/
def skip (command : Text) (source : σ) : Slot → σ
  | argument => (ArgumentSupply.mandatory command source).2
  | optional => (ArgumentSupply.optional command [] source).2
  | star => (ArgumentSupply.star source).2

/-- The source behind slots in a row. -/
def skipAll (command : Text) (slots : List Slot) (source : σ) : σ := slots.foldl (skip command) source

theorem skipAll_append (command : Text) (slots later : List Slot) (source : σ) :
    skipAll command (slots ++ later) source = skipAll command later (skipAll command slots source) :=
  List.foldl_append

end Slot

/-! ## Procedures -/

namespace Procedure

variable {σ α β : Type}

/-- Whatever the procedure answers has the property. -/
def Answers (Q : α → Prop) (p : Procedure σ α) : Prop := ∀ command before a, (p.run command before).1 = .ok a → Q a

theorem answers_pure {Q : α → Prop} {a : α} (h : Q a) : (pure a : Procedure σ α).Answers Q := by
  rintro _ _ _ ⟨⟩
  exact h

theorem Answers.bind {Q : β → Prop} {x : Procedure σ α} {f : α → Procedure σ β} (hf : ∀ a, (f a).Answers Q) :
    (x >>= f).Answers Q := by
  intro command before b hb
  rw [run_bind] at hb
  rcases hrun : x.run command before with ⟨result, after⟩
  rw [hrun] at hb
  cases result with
  | error e => cases hb
  | ok a => exact hf a command after b hb

variable [ArgumentSupply σ] {slots later : List Slot}

/-- If the procedure answers, it has read these slots and nothing else, whatever the session. -/
def Consumes (slots : List Slot) (p : Procedure σ α) : Prop :=
  ∀ command before a, (p.run command before).1 = .ok a →
    (p.run command before).2.source = Slot.skipAll command slots before.source

theorem Consumes.bind {x : Procedure σ α} {f : α → Procedure σ β} (hx : x.Consumes slots)
    (hf : ∀ a, (f a).Consumes later) : (x >>= f).Consumes (slots ++ later) := by
  intro command before b hb
  have hfirst := hx command before
  rw [run_bind] at hb ⊢
  rcases hrun : x.run command before with ⟨result, after⟩
  rw [hrun] at hb hfirst
  cases result with
  | error e => cases hb
  | ok a =>
    have hsource : after.source = Slot.skipAll command slots before.source := hfirst a rfl
    rw [Slot.skipAll_append, ← hsource]
    exact hf a command after b hb

/-- Of a procedure that never answers anything can be said. -/
theorem consumes_fail (e : Error) : (fail e : Procedure σ α).Consumes slots := fun _ _ _ h => nomatch h

theorem consumes_fail_bind (e : Error) (f : α → Procedure σ β) : (fail e >>= f).Consumes slots :=
  fun _ _ _ h => nomatch h

/-! ### Steps that do not read -/

theorem consumes_pure (a : α) : (pure a : Procedure σ α).Consumes [] := fun _ _ _ _ => rfl

theorem consumes_ofExcept (x : Except Error α) : (ofExcept x : Procedure σ α).Consumes [] := fun _ _ _ _ => rfl

theorem consumes_caller : (caller : Procedure σ Text).Consumes [] := fun _ _ _ _ => rfl

theorem consumes_session : (session : Procedure σ Session).Consumes [] := fun _ _ _ _ => rfl

theorem consumes_update {τ : Type} {part : Session → τ} {put : Session → τ → Session} (u : Update τ α) :
    (update part put u : Procedure σ α).Consumes [] := fun _ _ _ _ => rfl

theorem consumes_declare (name : Text) (parser : ListParser) : (declare name parser : Procedure σ Unit).Consumes [] :=
  fun _ _ _ _ => rfl

theorem consumes_nameOf (marked : Bool) (raw : Text) : (nameOf marked raw : Procedure σ Text).Consumes [] :=
  fun _ _ _ _ => rfl

/-! ### Steps that read -/

theorem consumes_argument : (argument : Procedure σ Text).Consumes [.argument] := fun _ _ _ _ => rfl

theorem consumes_optional : (optional [] : Procedure σ Text).Consumes [.optional] := fun _ _ _ _ => rfl

theorem consumes_star : (star : Procedure σ Bool).Consumes [.star] := fun _ _ _ _ => rfl

theorem consumes_name (marked : Bool) : (name marked : Procedure σ Text).Consumes [.argument] :=
  consumes_argument.bind fun raw => consumes_nameOf marked raw

theorem consumes_counter : (counter : Procedure σ Text).Consumes [.argument] := by
  refine consumes_argument.bind fun raw => consumes_session.bind fun s => ?_
  exact (consumes_ofExcept _).bind fun _ => consumes_pure raw.trim

theorem consumes_integer : (integer : Procedure σ Number).Consumes [.argument] :=
  consumes_argument.bind fun _ => consumes_session.bind fun _ => consumes_ofExcept _

theorem consumes_number : (number : Procedure σ Number).Consumes [.argument] :=
  consumes_argument.bind fun _ => consumes_ofExcept _

end Procedure

/-! ## Built-in commands -/

/-- What a command of the counters reads. -/
def CounterCommand.slots : CounterCommand → List Slot
  | .new => [.argument, .optional]
  | .set | .add | .define | .without => [.argument, .argument]
  | .step => [.argument]
  | .within => [.star, .argument, .argument]

/-- What a command of the flags reads. -/
def FlagCommand.slots : FlagCommand → List Slot
  | .new _ | .set (some _) => [.argument]
  | .set none => [.argument, .argument]

/-- What a reporting command reads. -/
def Report.slots : Report → List Slot
  | .format _ | .value | .number | .romanNumeral | .loop => [.argument]
  | .loopWith => [.argument, .argument]

/-- What a test reads before its branches. -/
def Test.slots : Test → List Slot
  | .flag _ _ | .counterDefined | .empty _ _ | .parity _ => [.argument]
  | .equalTexts | .compare (some _) | .inList => [.argument, .argument]
  | .compare none => [.argument, .argument, .argument]

/-- What a built-in command reads. -/
def Command.slots : Command → List Slot
  | .counter c => c.slots
  | .flag _ c => c.slots
  | .list _ => [.argument, .argument]
  | .declareParser => [.star, .argument, .argument]
  | .report r => r.slots
  | .test t => t.slots ++ [.argument, .argument]

section Commands

variable {σ : Type} [ArgumentSupply σ]

theorem CounterCommand.consumes_run (c : CounterCommand) : (c.run : Procedure σ Unit).Consumes c.slots := by
  cases c with
  | new =>
    have hcreate : ∀ name parent, (discard (changeCounters (Counters.create name parent 0)) :
        Procedure σ Unit).Consumes [] := fun name parent =>
      (consumes_update (Counters.create name parent 0)).bind fun _ => consumes_pure ()
    refine consumes_argument.bind fun raw => ?_
    split
    · exact consumes_caller.bind fun command => consumes_fail_bind _ _
    · -- the brackets are read in any case, the name in them only if something stands there
      refine (consumes_nameOf false raw).bind fun name => consumes_optional.bind fun above => ?_
      split
      · exact hcreate name none
      · exact ((consumes_nameOf false above).bind fun parent => consumes_pure (some parent)).bind
          fun parent => hcreate name parent
  | set => exact consumes_counter.bind fun name => consumes_number.bind fun value => consumes_update _
  | add => exact consumes_counter.bind fun name => consumes_number.bind fun delta => consumes_update _
  | step => exact consumes_counter.bind fun name => consumes_update _
  | define => exact consumes_counter.bind fun name => consumes_integer.bind fun value => consumes_update _
  | within =>
    refine consumes_star.bind fun starred => ?_
    exact consumes_counter.bind fun name => consumes_counter.bind fun above => consumes_update _
  | without => exact consumes_counter.bind fun name => consumes_counter.bind fun above => consumes_update _

theorem FlagCommand.consumes_run (space : FlagSpace) (c : FlagCommand) :
    (c.run space : Procedure σ Unit).Consumes c.slots := by
  cases c with
  | new strict => exact (consumes_name false).bind fun flag => consumes_update _
  | set value =>
    cases value with
    | some value => exact (consumes_name false).bind fun flag => consumes_update _
    | none =>
      refine (consumes_name false).bind fun flag => consumes_argument.bind fun text => ?_
      exact (consumes_ofExcept _).bind fun value => consumes_update _

theorem ListCommand.consumes_run (c : ListCommand) :
    (c.run : Procedure σ Unit).Consumes [.argument, .argument] := by
  cases c with
  | add =>
    refine (consumes_name false).bind fun list => consumes_argument.bind fun item => ?_
    exact (consumes_update _).bind fun _ => consumes_update _
  | remove => exact (consumes_name false).bind fun list => consumes_argument.bind fun item => consumes_update _

theorem consumes_declareParser : (declareParser : Procedure σ Unit).Consumes [.star, .argument, .argument] := by
  refine consumes_star.bind fun readsHandler => (consumes_name true).bind fun parser => ?_
  exact consumes_argument.bind fun separator => consumes_declare parser ⟨separator, readsHandler⟩

theorem Report.consumes_run [Memory] (r : Report) : (r.run : Procedure σ Expansion).Consumes r.slots := by
  cases r with
  | format f =>
    refine consumes_counter.bind fun name => consumes_session.bind fun s => ?_
    exact (consumes_ofExcept _).bind fun value => (consumes_ofExcept _).bind fun numeral => consumes_pure _
  | value =>
    refine consumes_counter.bind fun name => consumes_session.bind fun s => ?_
    exact (consumes_ofExcept _).bind fun value => consumes_pure _
  | number => exact consumes_number.bind fun n => consumes_pure _
  | romanNumeral =>
    exact consumes_number.bind fun n => (consumes_ofExcept _).bind fun numeral => consumes_pure _
  | loop =>
    refine (consumes_name false).bind fun list => consumes_session.bind fun s => ?_
    exact (consumes_ofExcept _).bind fun items => consumes_pure _
  | loopWith =>
    refine (consumes_name true).bind fun handler => (consumes_name false).bind fun list => ?_
    exact consumes_session.bind fun s => (consumes_ofExcept _).bind fun items => consumes_pure _

theorem Test.consumes_holds (t : Test) : (t.holds : Procedure σ Bool).Consumes t.slots := by
  cases t with
  | flag space negate =>
    refine (consumes_name false).bind fun flag => consumes_session.bind fun s => ?_
    exact (consumes_ofExcept _).bind fun value => consumes_pure _
  | counterDefined =>
    exact (consumes_name false).bind fun counter => consumes_session.bind fun s => consumes_pure _
  | equalTexts => exact consumes_argument.bind fun a => consumes_argument.bind fun b => consumes_pure _
  | empty trim negate => exact consumes_argument.bind fun text => consumes_pure _
  | compare relation =>
    cases relation with
    | some relation => exact consumes_integer.bind fun a => consumes_integer.bind fun b => consumes_pure _
    | none =>
      refine consumes_integer.bind fun a => consumes_argument.bind fun symbol => consumes_integer.bind fun b => ?_
      cases Relation.ofSymbol? symbol with
      | some relation => exact consumes_pure _
      | none => exact consumes_fail _
  | parity p => exact consumes_integer.bind fun n => consumes_pure _
  | inList =>
    refine consumes_argument.bind fun item => (consumes_name false).bind fun list => ?_
    exact consumes_session.bind fun s => consumes_ofExcept _

theorem Test.consumes_run (t : Test) :
    (t.run : Procedure σ Expansion).Consumes (t.slots ++ [.argument, .argument]) := by
  refine t.consumes_holds.bind fun condition => consumes_argument.bind fun ifTrue => ?_
  exact consumes_argument.bind fun ifFalse => consumes_pure _

/-- A built-in command that answers has read its slots. -/
theorem Command.consumes_run [Memory] (c : Command) : (c.run : Procedure σ Expansion).Consumes c.slots := by
  have hend : ∀ {slots} {p : Procedure σ Unit}, p.Consumes slots →
      (p >>= fun _ => pure Expansion.nothing).Consumes slots := by
    intro slots p hp
    have hpure := hp.bind fun _ => consumes_pure (σ := σ) Expansion.nothing
    rwa [List.append_nil] at hpure
  cases c with
  | counter c => exact hend c.consumes_run
  | flag space c => exact hend (c.consumes_run space)
  | list c => exact hend c.consumes_run
  | declareParser => exact hend consumes_declareParser
  | report r => exact r.consumes_run
  | test t => exact t.consumes_run

/-! ## Branches -/

/-- The two branches of a test, whichever was taken. -/
def Expansion.branches? : Expansion → Option (Text × Text)
  | .branch _ ifTrue ifFalse => some (ifTrue, ifFalse)
  | _ => none

/-- The two arguments behind what a test reads, if they are there. -/
def Command.branches? (command : Text) (source : σ) : Command → Option (Text × Text)
  | .test t =>
    let (ifTrue, rest) := ArgumentSupply.mandatory command (Slot.skipAll command t.slots source)
    match ifTrue, (ArgumentSupply.mandatory command rest).1 with
    | .ok ifTrue, .ok ifFalse => some (ifTrue, ifFalse)
    | _, _ => none
  | _ => none

theorem Command.answers_run [Memory] {c : Command} (hc : ∀ t, c ≠ .test t) :
    (c.run : Procedure σ Expansion).Answers fun x => x.branches? = none := by
  have hnothing : ∀ p : Procedure σ Unit, (p >>= fun _ => pure Expansion.nothing).Answers fun x => x.branches? = none :=
    fun p => Answers.bind fun _ => answers_pure rfl
  cases c with
  | counter c => exact hnothing c.run
  | flag space c => exact hnothing (c.run space)
  | list c => exact hnothing c.run
  | declareParser => exact hnothing DocState.declareParser
  | report r =>
    cases r with
    | format f =>
      refine Answers.bind fun name => Answers.bind fun s => Answers.bind fun value => Answers.bind fun numeral => ?_
      refine answers_pure ?_
      unfold Expansion.ofNumeral
      split <;> rfl
    | value => exact Answers.bind fun name => Answers.bind fun s => Answers.bind fun value => answers_pure rfl
    | number => exact Answers.bind fun n => answers_pure rfl
    | romanNumeral => exact Answers.bind fun n => Answers.bind fun numeral => answers_pure rfl
    | loop => exact Answers.bind fun list => Answers.bind fun s => Answers.bind fun items => answers_pure rfl
    | loopWith =>
      refine Answers.bind fun handler => Answers.bind fun list => Answers.bind fun s => Answers.bind fun items => ?_
      exact answers_pure rfl
  | test t => exact absurd rfl (hc t)

variable {s : Session} {command : Text} {source : σ} {x : Expansion}

/-- The branches of a test are the arguments behind what it tests. -/
theorem Test.branches_run {t : Test} {after : Situation σ}
    (h : (t.run : Procedure σ Expansion).run command ⟨s, source⟩ = (.ok x, after)) :
    x.branches? = (Command.test t).branches? command source := by
  rw [Test.run, run_bind] at h
  have hholds := t.consumes_holds command ⟨s, source⟩
  rcases hrun : (t.holds : Procedure σ Bool).run command ⟨s, source⟩ with ⟨result, ⟨session, rest⟩⟩
  rw [hrun] at h hholds
  cases result with
  | error e => cases h
  | ok condition =>
    obtain rfl : rest = Slot.skipAll command t.slots source := hholds condition rfl
    obtain ⟨ifTrue, hifTrue, h⟩ := exists_argument_of_run_eq_ok h
    obtain ⟨ifFalse, hifFalse, h⟩ := exists_argument_of_run_eq_ok h
    obtain rfl : Expansion.branch condition ifTrue ifFalse = x := Except.ok.inj (congrArg Prod.fst h)
    simp [Command.branches?, Expansion.branches?, hifTrue, hifFalse]

/-- A built-in command that answers has the branches that stand in its source. -/
theorem Command.branches_run [Memory] {c : Command}
    (h : ((c.run : Procedure σ Expansion).run command ⟨s, source⟩).1 = .ok x) :
    x.branches? = c.branches? command source := by
  by_cases htest : ∃ t, c = .test t
  · obtain ⟨t, rfl⟩ := htest
    exact Test.branches_run (Prod.ext h rfl)
  · have hc : ∀ t, c ≠ .test t := fun t heq => htest ⟨t, heq⟩
    rw [Command.answers_run hc command ⟨s, source⟩ x h]
    cases c with
    | test t => exact absurd rfl (hc t)
    | _ => rfl

end Commands

/-! ## Two sessions -/

namespace Session

/-- If two sessions, whatever is in them, answer a built-in command on the same source, they leave the same unread, which
the command and the source alone decide, and offer the same branches, whichever each of them takes. -/
theorem unread_run [Memory] {σ : Type} [ArgumentSupply σ] {name : Text} {c : Command}
    (hc : Command.lookup? name = some c) (source : σ) {s t : Session} {x y : Expansion}
    (hs : (s.run name source).1 = .ok x) (ht : (t.run name source).1 = .ok y) :
    (s.run name source).2.source = (t.run name source).2.source ∧
      (s.run name source).2.source = Slot.skipAll ('\\' :: name) c.slots source ∧ x.branches? = y.branches? := by
  have hperform : (perform name : Procedure σ Expansion) = c.run := by rw [perform, hc]
  rw [run, hperform] at hs ht ⊢
  rw [run, hperform]
  have hsource := c.consumes_run ('\\' :: name) ⟨s, source⟩ x hs
  have hsource' := c.consumes_run ('\\' :: name) ⟨t, source⟩ y ht
  exact ⟨hsource.trans hsource'.symm, hsource, (Command.branches_run hs).trans (Command.branches_run ht).symm⟩

/-- A flag that is true in a session that checks names, and false in one that does not, with text behind the branches. -/
theorem unread_run_ifbool :
    let _ : Memory := .upTo 4096
    let s := (((fresh .standard).runText "newbool".toList "{draft}".toList).2.runText "booltrue".toList
      "{draft}".toList).2
    let t := ((fresh .unchecked).runText "newbool".toList "{draft}".toList).2
    let source := Scanner.mk " \\draft{shown}x and more".toList
    Command.lookup? "ifbool".toList = some (.test (.flag .bool false)) ∧
      (s.run "ifbool".toList source).1 = .ok (.branch true "shown".toList ['x']) ∧
      (t.run "ifbool".toList source).1 = .ok (.branch false "shown".toList ['x']) ∧
      (s.run "ifbool".toList source).2.source = (t.run "ifbool".toList source).2.source := by
  intro _ s t source
  have hc : Command.lookup? "ifbool".toList = some (.test (.flag .bool false)) := by decide
  have hs : (s.run "ifbool".toList source).1 = .ok (.branch true "shown".toList ['x']) := by rfl
  have ht : (t.run "ifbool".toList source).1 = .ok (.branch false "shown".toList ['x']) := by rfl
  exact ⟨hc, hs, ht, (unread_run hc source hs ht).1⟩

end Session

end DocState
