import Mathlib.Data.List.Forall2
import DocState.Proofs.Lockstep.Commands

/-!
# Checked names are refused or read as unchecked ones

A session that checks names and one that does not read a name in the same way, and the check comes last.  So the two run
every command alike, up to the first name that the check refuses.

* `Session.Relaxed strict lenient`: the sessions differ in the check of names only.
* `Concur`: two runs with the same result, relaxed sessions and the same source behind them.
* `Procedure.Tolerates p q`: from relaxed sessions, `p` refuses a name or concurs with `q`.
  `Procedure.Lockstep.tolerates`: procedures in lockstep do so.
* `Session.concur_or_refuses`: all commands, and all histories of commands.
-/

namespace DocState

/-! ## Names -/

/-- A name was refused for its characters. -/
def RefusesName {α : Type} (result : Except Error α) : Prop :=
  ∃ command name, result = .error (.illegalName command name)

/-- The first session checks names, the second one does not, and they agree on everything else. -/
structure Session.Relaxed (strict lenient : Session) : Prop extends strict.Alike lenient where
  checked : strict.options.checkNames = true
  unchecked : lenient.options.checkNames = false

/-- A checked name is refused, or it is the unchecked one. -/
theorem Session.Relaxed.name {strict lenient : Session} (h : Relaxed strict lenient) (command : Text) (marked : Bool)
    (raw : Text) : RefusesName (strict.name command marked raw) ∨
      strict.name command marked raw = lenient.name command marked raw := by
  rw [Session.name, if_pos h.checked, Session.name, if_neg (Bool.eq_false_iff.1 h.unchecked), Name.checked]
  cases Name.spelled command marked raw with
  | error e => exact .inr rfl
  | ok name =>
    show RefusesName (if Name.isValid name = true then Except.ok name else _) ∨
      (if Name.isValid name = true then Except.ok name else _) = _
    by_cases hvalid : Name.isValid name = true
    · rw [if_pos hvalid]
      exact .inr rfl
    · rw [if_neg hvalid]
      exact .inl ⟨command, name, rfl⟩

/-! ## Procedures -/

/-- Two runs with the same result that leave relaxed sessions and the same source. -/
structure Concur {σ α : Type} (x y : Except Error α × Situation σ) : Prop where
  result : x.1 = y.1
  session : Session.Relaxed x.2.session y.2.session
  source : x.2.source = y.2.source

namespace Procedure

variable {σ α β : Type}

/-- Run on relaxed sessions, the first procedure refuses a name or concurs with the second one. -/
def Tolerates (p q : Procedure σ α) : Prop :=
  ∀ command strict lenient source, Session.Relaxed strict lenient →
    RefusesName (p.run command ⟨strict, source⟩).1 ∨
      Concur (p.run command ⟨strict, source⟩) (q.run command ⟨lenient, source⟩)

/-- What is known without looking at the session. -/
theorem tolerates_of_run {p : Procedure σ α} (result : Text → σ → Except Error α) (after : Text → σ → σ)
    (h : ∀ command s source, p.run command ⟨s, source⟩ = (result command source, ⟨s, after command source⟩)) :
    p.Tolerates p := by
  intro command strict lenient source hs
  rw [h, h]
  exact .inr ⟨rfl, hs, rfl⟩

theorem tolerates_pure (a : α) : (pure a : Procedure σ α).Tolerates (pure a) :=
  tolerates_of_run (fun _ _ => .ok a) (fun _ source => source) fun _ _ _ => rfl

theorem tolerates_caller : (caller : Procedure σ Text).Tolerates caller :=
  tolerates_of_run (fun command _ => .ok command) (fun _ source => source) fun _ _ _ => rfl

theorem Tolerates.bind {x y : Procedure σ α} {f g : α → Procedure σ β} (hx : x.Tolerates y)
    (hf : ∀ a, (f a).Tolerates (g a)) : (x >>= f).Tolerates (y >>= g) := by
  intro command strict lenient source hs
  rw [run_bind, run_bind]
  cases hrunx : x.run command ⟨strict, source⟩ with
  | mk resultx afterx =>
    cases hruny : y.run command ⟨lenient, source⟩ with
    | mk resulty aftery =>
      have hfirst := hx command strict lenient source hs
      rw [hrunx, hruny] at hfirst
      obtain ⟨c, name, hrefused⟩ | ⟨hresult, hsession, hsource⟩ := hfirst
      · obtain rfl : resultx = .error (.illegalName c name) := hrefused
        exact .inl ⟨c, name, rfl⟩
      · obtain ⟨sessionx, sourcex⟩ := afterx
        obtain ⟨sessiony, sourcey⟩ := aftery
        obtain rfl : resultx = resulty := hresult
        obtain rfl : sourcex = sourcey := hsource
        cases resultx with
        | ok a => exact hf a command sessionx sessiony sourcex hsession
        | error e => exact .inr ⟨rfl, hsession, rfl⟩

theorem tolerates_nameOf (marked : Bool) (raw : Text) :
    (nameOf marked raw : Procedure σ Text).Tolerates (nameOf marked raw) := by
  intro command strict lenient source hs
  have hrun : ∀ s : Session, (nameOf marked raw : Procedure σ Text).run command ⟨s, source⟩ =
      (s.name command marked raw, ⟨s, source⟩) := fun _ => rfl
  rw [hrun, hrun]
  rcases hs.name command marked raw with hrefused | hsame
  · exact .inl hrefused
  · exact .inr ⟨hsame, hs, rfl⟩

/-- An update of a part on which the sessions agree. -/
theorem tolerates_update {τ : Type} {part : Session → τ} {put : Session → τ → Session} (u : Update τ α)
    (hpart : ∀ {s t}, Session.Relaxed s t → part s = part t)
    (hput : ∀ {s t} a, Session.Relaxed s t → Session.Relaxed (put s a) (put t a)) :
    (update part put u : Procedure σ α).Tolerates (update part put u) := by
  intro command strict lenient source hs
  have hsame := hpart hs
  refine .inr ⟨?_, ?_, rfl⟩
  · show (u.outcome (part strict)).1 = (u.outcome (part lenient)).1
    rw [hsame]
  · show Session.Relaxed (put strict (u.outcome (part strict)).2) (put lenient (u.outcome (part lenient)).2)
    rw [hsame]
    exact hput _ hs

theorem tolerates_changeCounters (u : Update Counters α) :
    (changeCounters u : Procedure σ α).Tolerates (changeCounters u) :=
  tolerates_update u (fun hs => hs.counters) fun _ hs => { hs with counters := rfl }

variable [ArgumentSupply σ]

theorem tolerates_argument : (argument : Procedure σ Text).Tolerates argument :=
  tolerates_of_run (fun command source => (ArgumentSupply.mandatory command source).1)
    (fun command source => (ArgumentSupply.mandatory command source).2) fun _ _ _ => rfl

theorem tolerates_optional (fallback : Text) :
    (optional fallback : Procedure σ Text).Tolerates (optional fallback) :=
  tolerates_of_run (fun command source => (ArgumentSupply.optional command fallback source).1)
    (fun command source => (ArgumentSupply.optional command fallback source).2) fun _ _ _ => rfl

/-- Procedures in lockstep read the same names until one is refused. -/
theorem Lockstep.tolerates {first : Bool} {p q : Procedure σ α} (h : Lockstep first p q) : p.Tolerates q := by
  induction h with
  | ofExcept x => exact tolerates_of_run (fun _ _ => x) (fun _ source => source) fun _ _ _ => rfl
  | caller => exact tolerates_caller
  | argument => exact tolerates_argument
  | star =>
    exact tolerates_of_run (fun _ source => .ok (ArgumentSupply.star source).1)
      (fun _ source => (ArgumentSupply.star source).2) fun _ _ _ => rfl
  | nameOf marked raw => exact tolerates_nameOf marked raw
  | session h ih =>
    intro command strict lenient source hs
    exact ih strict lenient hs.toAlike command strict lenient source hs
  | bind hx hf ihx ihf => exact ihx.bind ihf
  | changeCounters u => exact tolerates_changeCounters u
  | changeFlags u =>
    exact tolerates_update u (fun hs => hs.flags) fun flags hs =>
      { hs with flags := rfl }
  | changeLists u =>
    exact tolerates_update u (fun hs => hs.lists) fun lists hs =>
      { hs with lists := rfl }
  | declare name parser =>
    intro command strict lenient source hs
    refine .inr ⟨rfl, ?_, rfl⟩
    have hparsers : (strict.declare name parser).parsers = (lenient.declare name parser).parsers := by
      rw [Session.declare, Session.declare, hs.parsers]
    exact { hs with parsers := hparsers }

end Procedure

/-! ## Commands -/

open Procedure

variable {σ : Type} [ArgumentSupply σ]

/-- The creation of a counter reads an optional argument, so it is not in lockstep with every source. -/
theorem tolerates_new : (CounterCommand.run .new : Procedure σ Unit).Tolerates (CounterCommand.run .new) := by
  have hcreate : ∀ name parent, (discard (changeCounters (Counters.create name parent 0)) :
      Procedure σ Unit).Tolerates (discard (changeCounters (Counters.create name parent 0))) := fun name parent =>
    (tolerates_changeCounters (Counters.create name parent 0)).bind fun _ => tolerates_pure ()
  refine tolerates_argument.bind fun raw => ?_
  split
  · refine tolerates_caller.bind fun command => ?_
    exact fun _ _ _ _ hs => .inr ⟨rfl, hs, rfl⟩
  · refine (tolerates_nameOf false raw).bind fun name => (tolerates_optional []).bind fun above => ?_
    split
    · exact hcreate name none
    · refine Tolerates.bind ?_ fun parent => hcreate name parent
      exact (tolerates_nameOf false above).bind fun parent => tolerates_pure (some parent)

theorem tolerates_perform [Memory] (name : Text) :
    (perform name : Procedure σ Expansion).Tolerates (perform name) := by
  by_cases hnew : Command.lookup? name = some (.counter .new)
  · rw [perform, hnew]
    exact tolerates_new.bind fun _ => tolerates_pure Expansion.nothing
  · exact (lockstep_perform hnew).tolerates

namespace Session

/-- The outcomes of commands run one after the other, each on a source of its own: the result, and the session and the
source after it. -/
def transcript [Memory] (s : Session) : List (Text × σ) → List (Except Error Expansion × Situation σ)
  | [] => []
  | (name, source) :: later => s.run name source :: (s.run name source).2.session.transcript later

/-- Run on sessions that differ in the check of names only, a command is refused for its name by the one or has the same
result in both, and leaves sessions that differ in the check only and the same text unread.  So do commands in a row,
as long as none is refused for its name. -/
theorem concur_or_refuses [Memory] {strict lenient : Session} (h : Relaxed strict lenient) :
    (∀ (name : Text) (source : σ), RefusesName (strict.run name source).1 ∨
      Concur (strict.run name source) (lenient.run name source)) ∧
    ∀ history : List (Text × σ), (∀ outcome ∈ strict.transcript history, ¬ RefusesName outcome.1) →
      List.Forall₂ Concur (strict.transcript history) (lenient.transcript history) := by
  have hcommand : ∀ {strict lenient : Session}, Relaxed strict lenient → ∀ (name : Text) (source : σ),
      RefusesName (strict.run name source).1 ∨ Concur (strict.run name source) (lenient.run name source) :=
    fun hs name source => tolerates_perform name ('\\' :: name) _ _ source hs
  refine ⟨hcommand h, fun history hlegal => ?_⟩
  induction history generalizing strict lenient with
  | nil => exact .nil
  | cons call later ih =>
    obtain ⟨hfirst, hlater⟩ := List.forall_mem_cons.1 hlegal
    have hconcur := (hcommand h call.1 call.2).resolve_left hfirst
    exact .cons hconcur (ih hconcur.session hlater)

/-- A name behind a backslash, a name with text behind it, and a refusal for another reason. -/
theorem concur_figures :
    let _ : Memory := .upTo 4096
    let strict := fresh .standard
    let lenient := fresh .unchecked
    let history : List (Text × Scanner) := [("newcounter".toList, ⟨"\\fig".toList⟩),
      ("stepcounter".toList, ⟨"{fig}".toList⟩), ("newbool".toList, ⟨"{draft} and more".toList⟩),
      ("value".toList, ⟨"{sec2}".toList⟩)]
    Relaxed strict lenient ∧ (∀ outcome ∈ strict.transcript history, ¬ RefusesName outcome.1) ∧
      List.Forall₂ Concur (strict.transcript history) (lenient.transcript history) := by
  intro _ strict lenient history
  have hrelaxed : Relaxed strict lenient := ⟨⟨rfl, rfl, rfl, rfl, rfl⟩, rfl, rfl⟩
  have hresults : (strict.transcript history).map Prod.fst =
      [.ok .nothing, .ok .nothing, .ok .nothing, .error (.undefinedCounter "sec2".toList)] := by rfl
  have hlegal : ∀ outcome ∈ strict.transcript history, ¬ RefusesName outcome.1 := by
    rintro outcome hmem ⟨command, name, hrefused⟩
    have hresult := List.mem_map_of_mem (f := Prod.fst) hmem
    rw [hresults, hrefused] at hresult
    simp at hresult
  exact ⟨hrelaxed, hlegal, (concur_or_refuses hrelaxed).2 history hlegal⟩

end Session
end DocState
