import DocState.Proofs.Commands.Reading
import DocState.Proofs.Effects.Commands

/-!
# How long a list parser stays declared

A declared list parser answers to its name until the name is declared again.  No counter of a name that is displayed
under it hides the parser, since parsers are looked up first, and no other command changes it.

* `Session.Declares s name source cs p`: the command declares `cs` as the parser `p`.  `run_declareListParser`: it does
  so, or is refused and changes nothing.
* `Session.Keeps cs s s'`: from `s`, commands have led to `s'`, and none of them has declared `cs`.
* `Session.parser?_of_keeps`: the parser of `cs` is still the same.
* `ListParser.run_standard`, `ListParser.run_handler`: the answer of a list parser.
* `Session.runText_of_keeps`: the answers to come of a parser that has just been declared.
-/

namespace DocState

open Braces Procedure

variable {σ : Type} [ArgumentSupply σ]

/-! ## Declarations -/

/-- The star, the name and the separator are read in turn, and the parser is declared last. -/
theorem run_declareParser [Memory] (command : Text) (s : Session) (source : σ) :
    Command.declareParser.run.run command ⟨s, source⟩ =
      match ArgumentSupply.mandatory command (ArgumentSupply.star source).2 with
      | (.error e, rest) => (.error e, ⟨s, rest⟩)
      | (.ok raw, rest) =>
        match s.name command true raw with
        | .error e => (.error e, ⟨s, rest⟩)
        | .ok cs =>
          match ArgumentSupply.mandatory command rest with
          | (.error e, rest) => (.error e, ⟨s, rest⟩)
          | (.ok separator, rest) =>
            (.ok .nothing, ⟨s.declare cs ⟨separator, (ArgumentSupply.star source).1⟩, rest⟩) := by
  simp only [Command.run, declareParser, Procedure.star, Procedure.name, nameOf, run_bind, argument, session, caller,
    Procedure.ofExcept, declare, run_pure]
  rcases ArgumentSupply.mandatory command (ArgumentSupply.star source).2 with ⟨e | raw, rest⟩
  · rfl
  · simp only
    cases s.name command true raw with
    | error e => rfl
    | ok cs =>
      simp only
      rcases ArgumentSupply.mandatory command rest with ⟨e | separator, last⟩ <;> rfl

theorem eq_declareListParser_of_lookup? {name : Text} (h : Command.lookup? name = some .declareParser) :
    name = "DeclareListParser".toList := Command.eq_of_lookup? (by decide) h

/-- The other built-in commands leave the list parsers as they are. -/
theorem Command.Effect.parsers_eq {s s' : Session} {command : Text} {source : σ} {c : Command}
    (h : Effect s command source c s') (hc : c ≠ .declareParser) : s'.parsers = s.parsers := by
  cases h with
  | declare parser hname => exact absurd rfl hc
  | _ => rfl

namespace Session

/-- The command is accepted as a declaration of `cs`, and `p` is the list parser that it has read. -/
structure Declares [Memory] (s : Session) (name : Text) (source : σ) (cs : Text) (p : ListParser) : Prop where
  command : name = "DeclareListParser".toList
  accepted : (s.run name source).1 = .ok .nothing
  starred : (ArgumentSupply.star source).1 = p.readsHandler
  given : s.Given ('\\' :: name) (ArgumentSupply.star source).2 true cs
  separator : (ArgumentSupply.mandatory ('\\' :: name)
    (ArgumentSupply.mandatory ('\\' :: name) (ArgumentSupply.star source).2).2).1 = .ok p.separator

variable {s s' : Session} {name cs : Text} {source : σ} {p : ListParser}

/-- A declaration is refused and changes nothing, or it declares what it has read. -/
theorem run_declareListParser [Memory] (s : Session) (source : σ) :
    let name := "DeclareListParser".toList
    (∃ e, (s.run name source).1 = .error e) ∧ (s.run name source).2.session = s ∨
      ∃ cs p, s.Declares name source cs p ∧ (s.run name source).2.session = s.declare cs p := by
  intro name
  have hlookup : Command.lookup? name = some .declareParser := by decide
  have hrun := (run_of_lookup? hlookup source).trans (run_declareParser ('\\' :: name) s source)
  rcases hraw : ArgumentSupply.mandatory ('\\' :: name) (ArgumentSupply.star source).2 with ⟨e | raw, rest⟩
  · rw [hraw] at hrun
    exact .inl ⟨⟨e, congrArg Prod.fst hrun⟩, congrArg (·.2.session) hrun⟩
  · rw [hraw] at hrun
    cases hcs : s.name ('\\' :: name) true raw with
    | error e =>
      simp only [hcs] at hrun
      exact .inl ⟨⟨e, congrArg Prod.fst hrun⟩, congrArg (·.2.session) hrun⟩
    | ok cs =>
      rcases hseparator : ArgumentSupply.mandatory ('\\' :: name) rest with ⟨e | separator, last⟩
      · simp only [hcs, hseparator] at hrun
        exact .inl ⟨⟨e, congrArg Prod.fst hrun⟩, congrArg (·.2.session) hrun⟩
      · simp only [hcs, hseparator] at hrun
        refine .inr ⟨cs, ⟨separator, (ArgumentSupply.star source).1⟩, ⟨rfl, ?_, rfl, ⟨raw, ?_, hcs⟩, ?_⟩, ?_⟩
        · exact congrArg Prod.fst hrun
        · rw [hraw]
        · rw [hraw, hseparator]
        · exact congrArg (·.2.session) hrun

/-! ## Later commands -/

/-- Commands, each on a source of any kind and with any memory, lead from `s` to the session, and none of them is
accepted as a declaration of `cs`. -/
inductive Keeps (cs : Text) (s : Session) : Session → Prop
  | refl : Keeps cs s s
  | run {s' : Session} {σ : Type} [ArgumentSupply σ] [Memory] (h : Keeps cs s s') (name : Text) (source : σ)
    (hkept : ∀ p, ¬ s'.Declares name source cs p) : Keeps cs s (s'.run name source).2.session

theorem parser?_declare (s : Session) (cs other : Text) (p : ListParser) :
    (s.declare cs p).parser? other = if cs = other then some p else s.parser? other := Table.get?_insert

/-- A name that is not declared stands for the same list parser as before. -/
theorem parser?_run [Memory] (hkept : ∀ p, ¬ s.Declares name source cs p) :
    (s.run name source).2.session.parser? cs = s.parser? cs := by
  by_cases hdeclare : Command.lookup? name = some .declareParser
  · obtain rfl := eq_declareListParser_of_lookup? hdeclare
    obtain ⟨-, hsame⟩ | ⟨other, p, hdeclares, hdeclared⟩ := s.run_declareListParser source
    · rw [hsame]
    · have hother : other ≠ cs := fun heq => hkept p (heq ▸ hdeclares)
      rw [hdeclared, parser?_declare, if_neg hother]
  · cases hc : Command.lookup? name with
    | none => rw [s.run_of_lookup?_eq_none name source hc]
    | some c =>
      have hparsers := (s.effect_run name source hc).parsers_eq fun heq => hdeclare (heq ▸ hc)
      rw [parser?, hparsers, parser?]

theorem Keeps.parser?_eq (h : Keeps cs s s') : s'.parser? cs = s.parser? cs := by
  induction h with
  | refl => rfl
  | run h name source hkept ih => exact (parser?_run hkept).trans ih

end Session

/-! ## The answer of a list parser -/

namespace ListParser

variable {p : ListParser} {command raw text : Text} {source middle rest : σ}

/-- What a list parser does behind its handler. -/
theorem run_split (p : ListParser) (handler : Text) (s : Session)
    (htext : ArgumentSupply.mandatory command source = (.ok text, rest)) :
    (argument >>= fun text => Procedure.ofExcept (Separated.items p.separator text) >>=
      fun items => pure (.tokens (handed handler items)) : Procedure σ Expansion).run command ⟨s, source⟩ =
      ((fun found => .tokens (handed handler found)) <$> Separated.items p.separator text, ⟨s, rest⟩) := by
  have hargument : (argument : Procedure σ Text).run command ⟨s, source⟩ = (.ok text, ⟨s, rest⟩) := by
    simp only [argument, htext]
  rw [run_bind_of_ok hargument, run_bind, Procedure.ofExcept]
  cases Separated.items p.separator text <;> rfl

/-- The items go to the standard handler. -/
theorem run_standard (h : p.readsHandler = false) (s : Session)
    (htext : ArgumentSupply.mandatory command source = (.ok text, rest)) :
    p.run.run command ⟨s, source⟩ =
      ((fun found => .tokens (handed standardHandler found)) <$> Separated.items p.separator text, ⟨s, rest⟩) := by
  unfold ListParser.run
  rw [h]
  exact p.run_split standardHandler s htext

/-- The items go to the handler that is read first. -/
theorem run_handler (h : p.readsHandler = true) (s : Session)
    (hraw : ArgumentSupply.mandatory command source = (.ok raw, middle))
    (htext : ArgumentSupply.mandatory command middle = (.ok text, rest)) :
    ∃ later, p.run.run command ⟨s, source⟩ =
      (s.name command true raw >>= fun handler =>
        (fun found => .tokens (handed handler found)) <$> Separated.items p.separator text, ⟨s, later⟩) := by
  have hname : (Procedure.name true : Procedure σ Text).run command ⟨s, source⟩ =
      (s.name command true raw, ⟨s, middle⟩) := by
    simp only [Procedure.name, nameOf, run_bind, argument, session, caller, Procedure.ofExcept, hraw]
  unfold ListParser.run
  rw [h]
  cases hhandler : s.name command true raw with
  | error e =>
    rw [hhandler] at hname
    refine ⟨middle, ?_⟩
    show (Procedure.name true >>= _ : Procedure σ Expansion).run command ⟨s, source⟩ = _
    rw [run_bind, hname]
    rfl
  | ok handler =>
    rw [hhandler] at hname
    refine ⟨rest, ?_⟩
    show (Procedure.name true >>= _ : Procedure σ Expansion).run command ⟨s, source⟩ = _
    rw [run_bind_of_ok hname]
    exact p.run_split handler s htext

end ListParser

namespace Session

/-- A list parser that has just been declared under a name that is not built in splits every balanced argument and hands
on the items, whatever commands come in between, until its name is declared again.  A text that cannot be split is
refused, and so is a handler that is no name, which is read first. -/
theorem runText_of_keeps [Memory] {s : Session} {source : σ} {x : Expansion}
    (h : (s.run "DeclareListParser".toList source).1 = .ok x) :
    ∃ cs p, s.Declares "DeclareListParser".toList source cs p ∧
      (Command.lookup? cs = none → ∀ s', Keeps cs (s.run "DeclareListParser".toList source).2.session s' →
        ∀ t rest, IsBalanced t →
          (p.readsHandler = false → s'.runText cs (braced t ++ rest) =
            ((fun found => .tokens (handed standardHandler found)) <$> Separated.items p.separator t, s')) ∧
          (p.readsHandler = true → ∀ text raw,
            ArgumentSupply.mandatory ('\\' :: cs) (Scanner.mk text) = (.ok raw, Scanner.mk (braced t ++ rest)) →
            s'.runText cs text =
              (s'.name ('\\' :: cs) true raw >>= fun handler =>
                (fun found => .tokens (handed handler found)) <$> Separated.items p.separator t, s'))) := by
  obtain ⟨⟨e, he⟩, -⟩ | ⟨cs, p, hdeclares, hdeclared⟩ := s.run_declareListParser source
  · cases he.symm.trans h
  refine ⟨cs, p, hdeclares, fun hcs s' hkeeps t rest ht => ?_⟩
  have hparser : s'.parser? cs = some p := by
    rw [hkeeps.parser?_eq, hdeclared, parser?_declare, if_pos rfl]
  have hrun : ∀ text, s'.run cs (Scanner.mk text) = p.run.run ('\\' :: cs) ⟨s', Scanner.mk text⟩ := fun text =>
    run_perform_declared hcs hparser ('\\' :: cs) (Scanner.mk text)
  have htext : ArgumentSupply.mandatory ('\\' :: cs) (Scanner.mk (braced t ++ rest)) = (.ok t, Scanner.mk rest) :=
    Scanner.mandatory_braced ht
  refine ⟨fun hstandard => ?_, fun hhandler text raw hraw => ?_⟩
  · rw [runText, hrun, ListParser.run_standard hstandard s' htext]
  · obtain ⟨later, hanswer⟩ := ListParser.run_handler hhandler s' hraw htext
    rw [runText, hrun, hanswer]

/-- A counter that would be displayed under the name, another declaration, and one of the name that lacks the
separator. -/
theorem runText_of_keeps_theparts :
    let _ : Memory := .upTo 4096
    let declare := "DeclareListParser".toList
    let s := (fresh .standard).run declare (Scanner.mk "*\\theparts{;}".toList)
    let counting := (s.2.session.run "newcounter".toList (Scanner.mk "{parts}".toList)).2.session
    let other := (counting.run declare (Scanner.mk "\\other{,}".toList)).2.session
    let s' := (other.run declare (Scanner.mk "\\theparts".toList)).2.session
    s.1 = .ok .nothing ∧ Keeps "theparts".toList s.2.session s' ∧ s'.counters.contains "parts".toList = true ∧
      s'.runText "theparts".toList "\\item{a;b}".toList = (.ok (.tokens "\\item{a}\\item{b}".toList), s') := by
  intro _ declare s counting other s'
  have hdeclared : s.1 = .ok .nothing := rfl
  have hcounting : Keeps "theparts".toList s.2.session counting :=
    .run .refl _ _ fun p h => absurd h.command (by decide)
  have hother : Keeps "theparts".toList s.2.session other := by
    refine hcounting.run _ _ fun p h => ?_
    obtain ⟨raw, hraw, hname⟩ := h.given
    have hread : (ArgumentSupply.mandatory ('\\' :: declare)
        (ArgumentSupply.star (Scanner.mk "\\other{,}".toList)).2).1 = .ok "\\other".toList := rfl
    obtain rfl : "\\other".toList = raw := Except.ok.inj (hread.symm.trans hraw)
    have hspelled : counting.name ('\\' :: declare) true "\\other".toList = .ok "other".toList := rfl
    exact absurd (Except.ok.inj (hspelled.symm.trans hname)) (by decide)
  have hlast : Keeps "theparts".toList s.2.session s' := by
    refine hother.run _ _ fun p h => ?_
    have hrefused : (other.run declare (Scanner.mk "\\theparts".toList)).1 =
        .error (.missingArgument ('\\' :: declare)) := rfl
    cases hrefused.symm.trans h.accepted
  refine ⟨hdeclared, hlast, rfl, ?_⟩
  obtain ⟨cs, ⟨separator, readsHandler⟩, hdeclares, hanswers⟩ := runText_of_keeps hdeclared
  obtain ⟨raw, hraw, hname⟩ := hdeclares.given
  let after := ArgumentSupply.star (Scanner.mk "*\\theparts{;}".toList)
  have hread : ArgumentSupply.mandatory ('\\' :: declare) after.2 =
      (.ok "\\theparts".toList, Scanner.mk "{;}".toList) := rfl
  obtain rfl : "\\theparts".toList = raw := Except.ok.inj ((congrArg Prod.fst hread).symm.trans hraw)
  have hspelled : (fresh .standard).name ('\\' :: declare) true "\\theparts".toList = .ok "theparts".toList := rfl
  obtain rfl : "theparts".toList = cs := Except.ok.inj (hspelled.symm.trans hname)
  have hstarred : after.1 = true := rfl
  obtain rfl : true = readsHandler := hstarred.symm.trans hdeclares.starred
  have hseparator : (ArgumentSupply.mandatory ('\\' :: declare) (Scanner.mk "{;}".toList)).1 = .ok [';'] := rfl
  obtain rfl : [';'] = separator := by
    have hread' := hdeclares.separator
    rw [hread] at hread'
    exact Except.ok.inj (hseparator.symm.trans hread')
  have hitem : ArgumentSupply.mandatory ('\\' :: "theparts".toList) (Scanner.mk "\\item{a;b}".toList) =
      (.ok "\\item".toList, Scanner.mk (braced "a;b".toList ++ [])) := rfl
  have hhandler : s'.name ('\\' :: "theparts".toList) true "\\item".toList = .ok "item".toList := rfl
  have hitems : Separated.items [';'] "a;b".toList = .ok [['a'], ['b']] := by cbv
  have hbalanced : IsBalanced "a;b".toList := by decide
  have hrun := (hanswers (by decide) s' hlast "a;b".toList [] hbalanced).2 rfl _ _ hitem
  rw [hhandler, hitems] at hrun
  exact hrun

end Session
end DocState
