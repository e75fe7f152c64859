import DocState.Proofs.Refusal.Commands

/-!
# What commands maintain

A property of sessions that no change of a command destroys is maintained by the command, whatever it reads and whether
it is refused or not.  Most commands read and then change one part of the session, so a property that does not depend on
that part is maintained.

* `Procedure.Ensures P Q p`, `Procedure.Maintains I p`: what holds of the session before and after.
* `Procedure.Ensures.after_reading`: what is read may be used in what follows.
* `maintains_perform`: a property of lists and options is maintained by all commands if it is maintained by those that
  change lists.
-/

namespace DocState
namespace Procedure

variable {σ α β : Type} {P Q I : Session → Prop}

/-! ## Definitions -/

/-- From a session with `P` one with `Q` is left, whatever the result. -/
def Ensures (P Q : Session → Prop) (p : Procedure σ α) : Prop :=
  ∀ command s, P s.session → Q (p.run command s).2.session

/-- From a session with `I` one with `I` is left. -/
def Maintains (I : Session → Prop) (p : Procedure σ α) : Prop := p.Ensures I I

/-! ## Procedures in sequence -/

theorem ReadOnly.maintains {p : Procedure σ α} (h : p.ReadOnly) : p.Maintains I := by
  intro command s hs
  rw [h command s]
  exact hs

/-- After a reading, `R` holds of the session together with what was read. -/
theorem Ensures.after_reading {R : α → Session → Prop} {x : Procedure σ α} {f : α → Procedure σ β} (hx : x.ReadOnly)
    (hrefused : ∀ s, P s → Q s)
    (hread : ∀ command s a, (x.run command s).1 = .ok a → P s.session → R a s.session)
    (hf : ∀ a, (f a).Ensures (R a) Q) : (x >>= f).Ensures P Q := by
  intro command s hs
  have hsame := hx command s
  have hanswer := hread command s
  rw [run_bind]
  cases hrun : x.run command s with
  | mk result after =>
    rw [hrun] at hsame hanswer
    cases result with
    | ok a => exact hf a command after (hsame ▸ hanswer a rfl hs)
    | error e => exact hsame ▸ hrefused s.session hs

theorem Maintains.after_reading {x : Procedure σ α} {f : α → Procedure σ β} (hx : x.ReadOnly)
    (hf : ∀ a, (f a).Maintains I) : (x >>= f).Maintains I :=
  Ensures.after_reading hx (fun _ hs => hs) (fun _ _ _ _ hs => hs) hf

theorem Ensures.bind {x : Procedure σ α} {f : α → Procedure σ β} (hx : x.Ensures P I)
    (hf : ∀ a, (f a).Maintains I) : (x >>= f).Ensures P I := by
  intro command s hs
  have hfirst := hx command s hs
  rw [run_bind]
  cases hrun : x.run command s with
  | mk result after =>
    rw [hrun] at hfirst
    cases result with
    | ok a => exact hf a command after hfirst
    | error e => exact hfirst

theorem ensures_update {τ : Type} {part : Session → τ} {put : Session → τ → Session} {u : Update τ α}
    (h : ∀ s, P s → Q (put s (u.after (part s)))) : (update part put u : Procedure σ α).Ensures P Q :=
  fun _ s hs => h s.session hs

theorem Maintains.then_pure {x : Procedure σ α} (hx : x.Maintains I) (f : α → β) :
    (x >>= fun a => pure (f a)).Maintains I :=
  Ensures.bind hx fun a => (readOnly_pure (f a)).maintains

end Procedure

/-! ## Commands -/

open Procedure

variable {σ : Type} [ArgumentSupply σ] {I : Session → Prop}

theorem CounterCommand.maintains_run (hI : ∀ s counters, I s → I { s with counters }) (c : CounterCommand) :
    (c.run : Procedure σ Unit).Maintains I := by
  have hchange : ∀ {α : Type} (u : Update Counters α), (changeCounters u : Procedure σ α).Maintains I := fun u =>
    ensures_update fun s hs => hI s _ hs
  cases c with
  | new =>
    refine Maintains.after_reading readOnly_argument fun raw => ?_
    split
    · exact (readOnly_caller.bind fun command => readOnly_fail_bind _ _).maintains
    · refine Maintains.after_reading (readOnly_nameOf false raw) fun name => ?_
      refine Maintains.after_reading (readOnly_optional []) fun above => ?_
      split
      · exact (hchange (Counters.create name none 0)).then_pure fun _ => ()
      · refine Maintains.after_reading ((readOnly_nameOf false above).map some) fun parent => ?_
        exact (hchange (Counters.create name parent 0)).then_pure fun _ => ()
  | set =>
    refine Maintains.after_reading readOnly_counter fun name => ?_
    exact Maintains.after_reading readOnly_number fun value => hchange _
  | add =>
    refine Maintains.after_reading readOnly_counter fun name => ?_
    exact Maintains.after_reading readOnly_number fun delta => hchange _
  | step => exact Maintains.after_reading readOnly_counter fun name => hchange _
  | define =>
    refine Maintains.after_reading readOnly_counter fun name => ?_
    exact Maintains.after_reading readOnly_integer fun value => hchange _
  | within =>
    refine Maintains.after_reading readOnly_star fun starred => ?_
    refine Maintains.after_reading readOnly_counter fun name => ?_
    exact Maintains.after_reading readOnly_counter fun above => hchange _
  | without =>
    refine Maintains.after_reading readOnly_counter fun name => ?_
    exact Maintains.after_reading readOnly_counter fun above => hchange _

theorem FlagCommand.maintains_run (hI : ∀ s flags, I s → I { s with flags }) (space : FlagSpace) (c : FlagCommand) :
    (c.run space : Procedure σ Unit).Maintains I := by
  have hchange : ∀ u : Update Flags Unit, (changeFlags u : Procedure σ Unit).Maintains I := fun u =>
    ensures_update fun s hs => hI s _ hs
  cases c with
  | new strict => exact Maintains.after_reading (readOnly_name false) fun flag => hchange _
  | set value =>
    cases value with
    | some value => exact Maintains.after_reading (readOnly_name false) fun flag => hchange _
    | none =>
      refine Maintains.after_reading (readOnly_name false) fun flag => ?_
      refine Maintains.after_reading readOnly_argument fun text => ?_
      exact Maintains.after_reading (readOnly_ofExcept _) fun value => hchange _

theorem maintains_declareParser (hI : ∀ s parsers, I s → I { s with parsers }) :
    (declareParser : Procedure σ Unit).Maintains I := by
  refine Maintains.after_reading readOnly_star fun readsHandler => ?_
  refine Maintains.after_reading (readOnly_name true) fun parser => ?_
  exact Maintains.after_reading readOnly_argument fun separator _ s hs => hI s.session _ hs

/-- A property of the lists and the options is maintained if the commands that change lists maintain it. -/
theorem maintains_perform [Memory] (hcounters : ∀ s counters, I s → I { s with counters })
    (hflags : ∀ s flags, I s → I { s with flags }) (hparsers : ∀ s parsers, I s → I { s with parsers })
    (hlists : ∀ c : ListCommand, (c.run : Procedure σ Unit).Maintains I) (name : Text) :
    (perform name : Procedure σ Expansion).Maintains I := by
  unfold perform
  cases Command.lookup? name with
  | some command =>
    cases command with
    | counter c => exact (c.maintains_run hcounters).then_pure fun _ => Expansion.nothing
    | flag space c => exact (c.maintains_run hflags space).then_pure fun _ => Expansion.nothing
    | list c => exact (hlists c).then_pure fun _ => Expansion.nothing
    | declareParser => exact (maintains_declareParser hparsers).then_pure fun _ => Expansion.nothing
    | report r => exact r.readOnly_run.maintains
    | test t => exact t.readOnly_run.maintains
  | none =>
    refine Maintains.after_reading readOnly_session fun s => ?_
    cases s.parser? name with
    | some parser => exact parser.readOnly_run.maintains
    | none => exact (readOnly_display name).maintains

end DocState
