import DocState.Argument.Prepared
import DocState.Proofs.Lockstep.Commands
import DocState.Proofs.Readback.Arguments

/-!
# Commands do not depend on where their arguments stand

A host may hand out arguments that it has split itself, and a scanner reads them from braces.  A command that reads
mandatory arguments only, and perhaps a star before all else, cannot tell the two apart.

* `Gives arguments source`: the source hands out these arguments, and none behind them.  `Hands first arguments source`:
  and has no star in front of them, if `first`.
* `SameOutcome`: two runs with the same result that leave the same session.
* `Procedure.Lockstep.sameOutcome`: procedures in lockstep, on sources that hand out the same arguments.
* `Scanner.hands_groups`, `Prepared.hands_ofList`: a text of groups, and arguments that have been split.
* `Session.run_groups`: commands on a text of groups and on any host.
-/

namespace DocState

open Braces

/-! ## What a source hands out -/

section Sources

variable {σ : Type} [ArgumentSupply σ]

/-- The source hands out the arguments in order, and then says that an argument is missing for the calling command. -/
def Gives : List Text → σ → Prop
  | [], source => ∀ command, (ArgumentSupply.mandatory command source).1 = .error (.missingArgument command)
  | argument :: rest, source => ∀ command,
    (ArgumentSupply.mandatory command source).1 = .ok argument ∧ Gives rest (ArgumentSupply.mandatory command source).2

/-- The source hands out the arguments, and if it is asked first, it has no star in front of them. -/
def Hands (first : Bool) (arguments : List Text) (source : σ) : Prop :=
  Gives arguments source ∧
    (first = true → (ArgumentSupply.star source).1 = false ∧ Gives arguments (ArgumentSupply.star source).2)

theorem Gives.hands {arguments : List Text} {source : σ} (h : Gives arguments source) : Hands false arguments source :=
  ⟨h, fun hfirst => nomatch hfirst⟩

end Sources

/-- Two runs with the same result that leave the same session. -/
structure SameOutcome {σ τ α : Type} (x : Except Error α × Situation σ) (y : Except Error α × Situation τ) : Prop where
  result : x.1 = y.1
  session : x.2.session = y.2.session

/-! ## Procedures -/

namespace Procedure

variable {σ τ : Type} [ArgumentSupply σ] [ArgumentSupply τ] {α : Type}

/-- Run on sources that hand out the same arguments, procedures in lockstep have the same outcome, and if they are not
refused the sources behind them hand out the same again. -/
theorem Lockstep.sameOutcome {first : Bool} {p : Procedure σ α} {q : Procedure τ α} (h : Lockstep first p q)
    (command : Text) (s : Session) {arguments : List Text} {x : σ} {y : τ} (hx : Hands first arguments x)
    (hy : Hands first arguments y) :
    SameOutcome (p.run command ⟨s, x⟩) (q.run command ⟨s, y⟩) ∧
      ∀ a, (p.run command ⟨s, x⟩).1 = .ok a → ∃ later, Gives later (p.run command ⟨s, x⟩).2.source ∧
        Gives later (q.run command ⟨s, y⟩).2.source := by
  induction h generalizing s arguments x y with
  | ofExcept | caller | nameOf | changeCounters | changeFlags | changeLists | declare =>
    -- nothing is read, so the sources stay where they are
    exact ⟨⟨rfl, rfl⟩, fun _ _ => ⟨arguments, hx.1, hy.1⟩⟩
  | argument =>
    have hread : ∀ {ρ : Type} [ArgumentSupply ρ] (source : ρ),
        (Procedure.argument : Procedure ρ Text).run command ⟨s, source⟩ =
          ((ArgumentSupply.mandatory command source).1, ⟨s, (ArgumentSupply.mandatory command source).2⟩) :=
      fun _ => rfl
    rw [hread, hread]
    cases arguments with
    | nil =>
      have hfirst := hx.1 command
      have hsecond := hy.1 command
      refine ⟨⟨hfirst.trans hsecond.symm, rfl⟩, fun a ha => ?_⟩
      rw [hfirst] at ha
      cases ha
    | cons argument rest =>
      obtain ⟨hfirst, hlater⟩ := hx.1 command
      obtain ⟨hsecond, hlater'⟩ := hy.1 command
      exact ⟨⟨hfirst.trans hsecond.symm, rfl⟩, fun _ _ => ⟨rest, hlater, hlater'⟩⟩
  | star =>
    obtain ⟨hfirst, hlater⟩ := hx.2 rfl
    obtain ⟨hsecond, hlater'⟩ := hy.2 rfl
    refine ⟨⟨?_, rfl⟩, fun _ _ => ⟨arguments, hlater, hlater'⟩⟩
    exact congrArg Except.ok (hfirst.trans hsecond.symm)
  | session h ih => exact ih s s (.refl s) s hx hy
  | @bind _ α β p q f g hp hf ihp ihf =>
    obtain ⟨⟨hresult, hsession⟩, hlater⟩ := ihp s hx hy
    rw [run_bind, run_bind]
    cases hrun : p.run command ⟨s, x⟩ with
    | mk result after =>
      cases hrun' : q.run command ⟨s, y⟩ with
      | mk result' after' =>
        rw [hrun, hrun'] at hresult hsession hlater
        obtain ⟨session, source⟩ := after
        obtain ⟨session', source'⟩ := after'
        obtain rfl : result = result' := hresult
        obtain rfl : session = session' := hsession
        cases result with
        | error e => exact ⟨⟨rfl, rfl⟩, fun a ha => nomatch ha⟩
        | ok a =>
          obtain ⟨later, hgives, hgives'⟩ := hlater a rfl
          exact ihf a session hgives.hands hgives'.hands

end Procedure

/-- A command other than the one that creates counters depends on what its source hands out, and on nothing else. -/
theorem Session.sameOutcome_of_hands [Memory] {σ τ : Type} [ArgumentSupply σ] [ArgumentSupply τ] (s : Session)
    {name : Text} (hname : name ≠ "newcounter".toList) {arguments : List Text} {x : σ} {y : τ}
    (hx : Hands true arguments x) (hy : Hands true arguments y) : SameOutcome (s.run name x) (s.run name y) :=
  ((lockstep_perform fun hnew => hname (eq_newcounter_of_lookup? hnew)).sameOutcome ('\\' :: name) s hx hy).1

/-! ## Groups in a text -/

namespace Scanner

/-- Groups with nothing between them and nothing behind them. -/
def groups (arguments : List Text) : Scanner := ⟨arguments.flatMap braced⟩

theorem gives_groups {arguments : List Text} (h : ∀ argument ∈ arguments, IsBalanced argument) :
    Gives arguments (groups arguments) := by
  induction arguments with
  | nil => exact fun _ => rfl
  | cons argument rest ih =>
    intro command
    obtain ⟨hbalanced, hrest⟩ := List.forall_mem_cons.1 h
    have hread : ArgumentSupply.mandatory command (groups (argument :: rest)) = (.ok argument, groups rest) :=
      mandatory_braced hbalanced
    rw [hread]
    exact ⟨rfl, ih hrest⟩

theorem hands_groups {arguments : List Text} (h : ∀ argument ∈ arguments, IsBalanced argument) :
    Hands true arguments (groups arguments) := by
  have hstar : ArgumentSupply.star (groups arguments) = (false, groups arguments) := by
    cases arguments <;> rfl
  refine ⟨gives_groups h, fun _ => ?_⟩
  rw [hstar]
  exact ⟨rfl, gives_groups h⟩

end Scanner

/-! ## Arguments that have been split -/

namespace Prepared

theorem gives_of_read (read rest : List Text) : Gives rest (Prepared.mk ((read ++ rest).map some) read.length) := by
  induction rest generalizing read with
  | nil =>
    intro command
    have hend : Prepared.next? ⟨(read ++ []).map some, read.length⟩ = none := by simp [next?]
    show (mandatory command _).1 = _
    rw [mandatory, hend]
  | cons argument rest ih =>
    intro command
    have hnext : Prepared.next? ⟨(read ++ argument :: rest).map some, read.length⟩ = some (some argument) := by
      simp [next?]
    have hlater := ih (read ++ [argument])
    rw [List.append_assoc, List.length_append, List.singleton_append] at hlater
    have hread : ArgumentSupply.mandatory command (Prepared.mk ((read ++ argument :: rest).map some) read.length) =
        (.ok argument, Prepared.mk ((read ++ argument :: rest).map some) (read.length + 1)) := by
      show mandatory command _ = _
      rw [mandatory, hnext]
      rfl
    rw [hread]
    exact ⟨rfl, hlater⟩

theorem hands_ofList {arguments : List Text} (h : arguments.head? ≠ some ['*']) :
    Hands true arguments (ofList arguments) := by
  have hgives : Gives arguments (ofList arguments) := gives_of_read [] arguments
  have hnext : (ofList arguments).next? ≠ some (some ['*']) := by
    cases arguments with
    | nil => exact nofun
    | cons argument rest =>
      rintro heq
      have hargument : argument = ['*'] := by simpa [next?, ofList] using heq
      exact h (congrArg some hargument)
  have hstar : ArgumentSupply.star (ofList arguments) = (false, ofList arguments) := if_neg hnext
  refine ⟨hgives, fun _ => ?_⟩
  rw [hstar]
  exact ⟨rfl, hgives⟩

end Prepared

namespace Session

/-- On balanced arguments in braces, a command has the outcome that it has on any host that hands out the arguments
themselves, in particular on a list of them that does not begin with a star. -/
theorem run_groups [Memory] (s : Session) {name : Text} (hname : name ≠ "newcounter".toList) {arguments : List Text}
    (hbalanced : ∀ argument ∈ arguments, IsBalanced argument) (hstar : arguments.head? ≠ some ['*']) :
    (∀ (τ : Type) [ArgumentSupply τ] (host : τ), Hands true arguments host →
      SameOutcome (s.run name (Scanner.groups arguments)) (s.run name host)) ∧
    SameOutcome (s.run name (Scanner.groups arguments)) (s.run name (Prepared.ofList arguments)) := by
  have hhost : ∀ (τ : Type) [ArgumentSupply τ] (host : τ), Hands true arguments host →
      SameOutcome (s.run name (Scanner.groups arguments)) (s.run name host) := fun τ _ host hhands =>
    s.sameOutcome_of_hands hname (Scanner.hands_groups hbalanced) hhands
  exact ⟨hhost, hhost Prepared (Prepared.ofList arguments) (Prepared.hands_ofList hstar)⟩

/-- A parser whose separator is a group is declared from a text as from a list. -/
theorem run_groups_declare :
    let _ : Memory := .upTo 4096
    let s := fresh .standard
    let arguments := ["\\each".toList, "{;}".toList]
    "DeclareListParser".toList ≠ "newcounter".toList ∧ (∀ argument ∈ arguments, IsBalanced argument) ∧
      arguments.head? ≠ some ['*'] ∧
      SameOutcome (s.run "DeclareListParser".toList (Scanner.groups arguments))
        (s.run "DeclareListParser".toList (Prepared.ofList arguments)) ∧
      (s.run "DeclareListParser".toList (Prepared.ofList arguments)).2.session =
        s.declare "each".toList ⟨"{;}".toList, false⟩ := by
  intro _ s arguments
  have hname : "DeclareListParser".toList ≠ "newcounter".toList := by decide
  have hbalanced : ∀ argument ∈ arguments, IsBalanced argument := by decide
  have hstar : arguments.head? ≠ some ['*'] := by decide
  exact ⟨hname, hbalanced, hstar, (s.run_groups hname hbalanced hstar).2, by rfl⟩

end Session
end DocState
