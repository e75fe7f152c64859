import DocState.Proofs.Counters.Creation
import DocState.Proofs.Lockstep.Sources

/-!
# Commands that only read

A report or a test reads its arguments, asks the session about them, and changes nothing.

* `Procedure.Reads`: what a step answers that is given certain arguments, and which of them it leaves.
* `Reads.bind`: one step after the other.  `reads_argument`, `reads_integer`, `reads_counterValue`: single steps.
* `Test.reads_run`: both branches are read, and the condition chooses.
* `Session.runText_of_reads`: built-in commands on arguments in braces.
-/

namespace DocState

open Braces

variable {σ α β : Type} [ArgumentSupply σ]

/-! ## Steps -/

namespace Procedure

theorem run_bind_of_ok {σ : Type} {x : Procedure σ α} {f : α → Procedure σ β} {command : Text} {s s' : Situation σ}
    {a : α} (h : x.run command s = (.ok a, s')) : (x >>= f).run command s = (f a).run command s' := by
  rw [run_bind, h]

theorem run_session_bind {σ : Type} (f : Session → Procedure σ α) (command : Text) (s : Situation σ) :
    (session >>= f).run command s = (f s.session).run command s := rfl

/-- On every source that hands out the arguments, the step answers `result` and leaves the session as it is.  Unless it
fails, the source then hands out `rest`. -/
def Reads (p : Procedure σ α) (command : Text) (s : Session) (arguments rest : List Text) (result : Except Error α) :
    Prop :=
  ∀ source, Gives arguments source →
    ∃ later, p.run command ⟨s, source⟩ = (result, ⟨s, later⟩) ∧ ∀ a, result = .ok a → Gives rest later

variable {command raw text : Text} {s : Session} {arguments middle rest : List Text} {result : Except Error α}

theorem Reads.bind {x : Procedure σ α} {f : α → Procedure σ β} {g : α → Except Error β}
    (hx : x.Reads command s arguments middle result)
    (hf : ∀ a, result = .ok a → (f a).Reads command s middle rest (g a)) :
    (x >>= f).Reads command s arguments rest (result >>= g) := by
  intro source hsource
  obtain ⟨later, hrun, hlater⟩ := hx source hsource
  rw [run_bind, hrun]
  cases result with
  | ok a => exact hf a rfl later (hlater a rfl)
  | error e => exact ⟨later, rfl, fun b hb => nomatch hb⟩

/-- A step that answers. -/
theorem Reads.bind_ok {x : Procedure σ α} {f : α → Procedure σ β} {a : α} {result : Except Error β}
    (hx : x.Reads command s arguments middle (.ok a)) (hf : (f a).Reads command s middle rest result) :
    (x >>= f).Reads command s arguments rest result :=
  hx.bind (g := fun _ => result) fun _ ha => Except.ok.inj ha ▸ hf

theorem reads_ofExcept (result : Except Error α) : (ofExcept result : Procedure σ α).Reads command s rest rest result :=
  fun source hsource => ⟨source, rfl, fun _ _ => hsource⟩

theorem reads_pure (a : α) : (pure a : Procedure σ α).Reads command s rest rest (.ok a) := reads_ofExcept (.ok a)

theorem reads_session : (session : Procedure σ Session).Reads command s rest rest (.ok s) :=
  fun source hsource => ⟨source, rfl, fun _ _ => hsource⟩

theorem reads_caller : (caller : Procedure σ Text).Reads command s rest rest (.ok command) :=
  fun source hsource => ⟨source, rfl, fun _ _ => hsource⟩

/-- What is read, with a function applied to it. -/
theorem Reads.map {x : Procedure σ α} (hx : x.Reads command s arguments rest result) (f : α → β) :
    (x >>= fun a => pure (f a)).Reads command s arguments rest (f <$> result) := by
  rw [map_eq_pure_bind]
  exact hx.bind fun a _ => reads_pure (f a)

/-! ## Arguments -/

theorem reads_argument : (argument : Procedure σ Text).Reads command s (raw :: rest) rest (.ok raw) := by
  intro source hsource
  obtain ⟨hraw, hrest⟩ := hsource command
  refine ⟨_, ?_, fun _ _ => hrest⟩
  rw [← hraw]
  rfl

theorem reads_name (marked : Bool) :
    (name marked : Procedure σ Text).Reads command s (raw :: rest) rest (s.name command marked raw) :=
  reads_argument.bind_ok (reads_session.bind_ok (reads_caller.bind_ok (reads_ofExcept _)))

theorem reads_integer : (integer : Procedure σ Number).Reads command s (text :: rest) rest (s.integer text) :=
  reads_argument.bind_ok (reads_session.bind_ok (reads_ofExcept _))

theorem reads_number : (number : Procedure σ Number).Reads command s (text :: rest) rest (Number.leading text) :=
  reads_argument.bind_ok (reads_ofExcept _)

/-- A counter is named by the argument without the blanks around it. -/
theorem reads_counter : (counter : Procedure σ Text).Reads command s (raw :: rest) rest
    ((fun _ => raw.trim) <$> s.counters.place raw.trim) :=
  reads_argument.bind_ok (reads_session.bind_ok ((reads_ofExcept _).map _))

/-- The value of a counter, and what is done with it. -/
theorem reads_counterValue {f : Number → Procedure σ α} {g : Number → Except Error α}
    (hf : ∀ n, (f n).Reads command s rest rest (g n)) :
    (do let name ← counter
        let value ← ofExcept ((← session).counters.value name)
        f value : Procedure σ α).Reads command s (raw :: rest) rest (s.counters.value raw.trim >>= g) := by
  have hname : (counter : Procedure σ Text).Reads command s (raw :: rest) rest _ := reads_counter
  have hread := hname.bind fun name _ => reads_session.bind fun s' _ =>
    (reads_ofExcept (s'.counters.value name)).bind fun n _ => hf n
  cases hplace : s.counters.place raw.trim with
  | error e =>
    rw [hplace] at hread
    rw [Counters.value_eq_of_place_error hplace]
    exact hread
  | ok i =>
    rw [hplace] at hread
    exact hread

end Procedure

open Procedure

variable {command raw text : Text} {s : Session} {arguments rest : List Text}

/-! ## Reports -/

namespace Report

theorem reads_format [Memory] (f : Numeral.Format) : (Report.run (.format f) : Procedure σ Expansion).Reads command s
    (raw :: rest) rest (s.counters.value raw.trim >>= fun n => .ofNumeral <$> f.apply n) :=
  reads_counterValue fun n => (reads_ofExcept (f.apply n)).map Expansion.ofNumeral

theorem reads_value [Memory] : (Report.run .value : Procedure σ Expansion).Reads command s (raw :: rest) rest
    (.number <$> s.counters.value raw.trim) := by
  rw [map_eq_pure_bind]
  exact reads_counterValue fun n => reads_pure (Expansion.number n)

theorem reads_romanNumeral [Memory] :
    (Report.run .romanNumeral : Procedure σ Expansion).Reads command s (text :: rest) rest
      (Number.leading text >>= fun n => .text <$> Numeral.Format.apply ⟨.roman, false⟩ n) :=
  reads_number.bind fun n _ => (reads_ofExcept (Numeral.Format.apply ⟨.roman, false⟩ n)).map Expansion.text

end Report

/-! ## Tests -/

namespace Test

variable {test : Test} {condition : Except Error Bool} {ifTrue ifFalse : Text}

/-- The branches stand behind what the condition reads.  Both are read, whichever is taken. -/
theorem reads_run (h : (test.holds : Procedure σ Bool).Reads command s arguments (ifTrue :: ifFalse :: rest) condition) :
    (test.run : Procedure σ Expansion).Reads command s arguments rest ((.branch · ifTrue ifFalse) <$> condition) := by
  rw [map_eq_pure_bind]
  exact h.bind fun c _ => reads_argument.bind_ok (reads_argument.bind_ok (reads_pure _))

theorem reads_counterDefined : (Test.holds .counterDefined : Procedure σ Bool).Reads command s (raw :: rest) rest
    (s.counters.contains <$> s.name command false raw) := by
  rw [map_eq_pure_bind]
  exact (reads_name false).bind fun name _ => reads_session.bind_ok (reads_pure _)

end Test

/-! ## Commands by name -/

/-- A name that is not built in runs the list parser that is declared under it. -/
theorem run_perform_declared [Memory] {cs : Text} {p : ListParser} (hbuiltin : Command.lookup? cs = none)
    (hparser : s.parser? cs = some p) (command : Text) (source : σ) :
    (perform cs).run command ⟨s, source⟩ = p.run.run command ⟨s, source⟩ := by
  simp only [perform, hbuiltin, run_session_bind, hparser]

namespace Session

variable {name : Text} {c : Command} {result : Except Error Expansion}

theorem run_of_lookup? [Memory] (hname : Command.lookup? name = some c) (source : σ) :
    s.run name source = c.run.run ('\\' :: name) ⟨s, source⟩ := by
  rw [run, perform, hname]

theorem exists_run_of_reads [Memory] (hname : Command.lookup? name = some c)
    (h : (c.run : Procedure σ Expansion).Reads ('\\' :: name) s arguments rest result) {source : σ}
    (hsource : Gives arguments source) : ∃ later, s.run name source = (result, ⟨s, later⟩) := by
  obtain ⟨later, hrun, -⟩ := h source hsource
  refine ⟨later, ?_⟩
  rw [← hrun, run_of_lookup? hname]

/-- A built-in command that only reads, on its arguments in braces. -/
theorem runText_of_reads [Memory] (hname : Command.lookup? name = some c)
    (h : (c.run : Procedure Scanner Expansion).Reads ('\\' :: name) s arguments [] result)
    (hbalanced : ∀ argument ∈ arguments, IsBalanced argument) :
    s.runText name (arguments.flatMap braced) = (result, s) := by
  obtain ⟨later, hrun⟩ := exists_run_of_reads hname h (Scanner.gives_groups hbalanced)
  rw [runText, ← Scanner.groups, hrun]

end Session
end DocState
