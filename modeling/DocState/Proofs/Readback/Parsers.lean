import DocState.Proofs.Commands.Reading
import DocState.Proofs.Readback.Spelling
import DocState.Proofs.Separated.Division

/-!
# What a list parser expands to is read back item by item

* `Session.name_handler`: a handler is accepted as a name.
* `Procedure.run_argument`, `Procedure.run_name`: the readings of a command whose arguments stand in a text.
* `ListParser.call`: a call of a list parser, with a handler if it reads one.  `ListParser.reads_run`: what it expands to.
* `Session.readings_runText_declared`: the parser hands the items of its balanced argument to the handler, and the calls
  are read back.
-/

namespace DocState

open Braces

/-! ## Names of handlers -/

theorem isBlank_eq_false_of_isAlpha {c : Char} (h : c.isAlpha = true) : isBlank c = false := by
  have hrange : (65 ≤ c.toNat ∧ c.toNat ≤ 90) ∨ (97 ≤ c.toNat ∧ c.toNat ≤ 122) := by
    rcases Bool.or_eq_true_iff.1 h with hupper | hlower
    · exact .inl (of_decide_eq_true hupper)
    · exact .inr ((Bool.and_eq_true_iff.1 hlower).imp of_decide_eq_true of_decide_eq_true)
  simp only [isBlank, Bool.or_eq_false_iff, Bool.and_eq_false_iff, decide_eq_false_iff_not, beq_eq_false_iff_ne]
  omega

namespace Scanner.IsHandler

variable {handler : Text}

theorem isBlank_eq_false (h : IsHandler handler) {c : Char} (hc : c ∈ handler) : isBlank c = false := by
  rcases h with ⟨c', rfl, hblank⟩ | ⟨-, halpha⟩
  · rwa [List.mem_singleton.1 hc]
  · exact isBlank_eq_false_of_isAlpha (halpha c hc)

theorem isValid (h : IsHandler handler) : Name.isValid handler = true := by
  have hblank := fun c => h.isBlank_eq_false (c := c)
  rcases h with ⟨c, rfl, -⟩ | ⟨hne, halpha⟩
  · have hfeed : c ≠ '\n' := by
      rintro rfl
      exact absurd (hblank '\n' List.mem_cons_self) (by decide)
    simpa [Name.isValid] using hfeed
  · have hletters : handler.all Name.isLetter = true := by
      rw [List.all_eq_true]
      intro c hc
      rw [Name.isLetter, halpha c hc]
      rfl
    obtain ⟨c, letters, rfl⟩ := List.exists_cons_of_ne_nil hne
    cases letters with
    | nil =>
      have hfeed : c ≠ '\n' := by
        rintro rfl
        exact absurd (hblank '\n' List.mem_cons_self) (by decide)
      simpa [Name.isValid] using hfeed
    | cons c' letters => exact hletters

theorem isBalanced (h : IsHandler handler) : IsBalanced ('\\' :: handler) := by
  rcases h with ⟨c, rfl, -⟩ | ⟨hne, halpha⟩
  · rfl
  · obtain ⟨c, letters, rfl⟩ := List.exists_cons_of_ne_nil hne
    have hplain : ∀ c ∈ letters, Plain c := fun c' hc' => plain_of_isAlpha (halpha c' (List.mem_cons_of_mem c hc'))
    exact closes_escaped.2 (isBalanced_of_forall_plain hplain)

end Scanner.IsHandler

open Scanner

theorem Session.name_handler (s : Session) (command : Text) (marked : Bool) {handler : Text} (h : IsHandler handler) :
    s.name command marked ('\\' :: handler) = .ok handler := by
  have hlast : ∀ c ∈ handler.getLast?, isBlank c = false := fun c hc => h.isBlank_eq_false (List.mem_of_getLast? hc)
  have hspelled : Name.spelled command marked ([] ++ ('\\' :: handler ++ [])) = .ok handler :=
    Name.spelled_escaped hlast nofun nofun
  rw [List.nil_append, List.append_nil] at hspelled
  exact Session.name_eq_ok_iff.2 ⟨hspelled, fun _ => h.isValid⟩

/-! ## Commands that read from a text -/

namespace Procedure

theorem run_argument (command : Text) (s : Session) (scanner : Scanner) :
    (argument : Procedure Scanner Text).run command ⟨s, scanner⟩ =
      ((mandatory command scanner).1, ⟨s, (mandatory command scanner).2⟩) := rfl

theorem run_name (command : Text) (marked : Bool) (s : Session) (scanner : Scanner) :
    (Procedure.name marked).run command ⟨s, scanner⟩ =
      match mandatory command scanner with
      | (.ok raw, rest) => (s.name command marked raw, ⟨s, rest⟩)
      | (.error e, rest) => (.error e, ⟨s, rest⟩) := by
  rw [Procedure.name, run_bind, run_argument]
  rcases mandatory command scanner with ⟨_ | _, _⟩ <;> rfl

/-- A name is what a mandatory argument spells. -/
theorem run_name_eq_ok_iff {command name : Text} {marked : Bool} {s : Session} {scanner : Scanner}
    {after : Situation Scanner} :
    (Procedure.name marked).run command ⟨s, scanner⟩ = (.ok name, after) ↔
      ∃ raw rest, mandatory command scanner = (.ok raw, rest) ∧ s.name command marked raw = .ok name ∧
        ⟨s, rest⟩ = after := by
  rw [run_name]
  rcases mandatory command scanner with ⟨_ | raw, rest⟩
  · simp
  · constructor
    · intro h
      obtain ⟨hname, hafter⟩ := Prod.ext_iff.1 h
      exact ⟨raw, rest, rfl, hname, hafter⟩
    · rintro ⟨_, _, ⟨⟩, hname, rfl⟩
      exact congrArg (·, _) hname

end Procedure

/-! ## List parsers -/

/-- A call of a list parser: the handler behind a backslash, if one is read, and the text, each in braces. -/
def ListParser.call (p : ListParser) (handler t : Text) : Text :=
  (if p.readsHandler then braced ('\\' :: handler) else []) ++ braced t

/-- The handler that a list parser calls. -/
def ListParser.handler (p : ListParser) (handler : Text) : Text := if p.readsHandler then handler else standardHandler

theorem ListParser.isHandler_handler {p : ListParser} {handler : Text}
    (hhandler : p.readsHandler = true → IsHandler handler) : IsHandler (p.handler handler) := by
  unfold ListParser.handler
  split
  · exact hhandler ‹_›
  · exact isHandler_standardHandler

namespace ListParser

variable {p : ListParser} {handler t : Text}

/-- The arguments of a call. -/
def arguments (p : ListParser) (handler t : Text) : List Text := (if p.readsHandler then ['\\' :: handler] else []) ++ [t]

theorem call_eq : p.call handler t = (p.arguments handler t).flatMap braced := by
  unfold call arguments
  split <;> simp

theorem isBalanced_of_mem_arguments (hhandler : p.readsHandler = true → IsHandler handler) (ht : IsBalanced t) :
    ∀ argument ∈ p.arguments handler t, IsBalanced argument := by
  unfold arguments
  split
  · simp [(hhandler ‹_›).isBalanced, ht]
  · simp [ht]

open Procedure in
theorem reads_run {σ : Type} [ArgumentSupply σ] {s : Session} {command : Text} {found : List Text}
    (hhandler : p.readsHandler = true → IsHandler handler) (hfound : Separated.items p.separator t = .ok found) :
    (p.run : Procedure σ Expansion).Reads command s (p.arguments handler t) []
      (.ok (.tokens (handed (p.handler handler) found))) := by
  have hsplit : ∀ handler, (argument >>= fun text => Procedure.ofExcept (Separated.items p.separator text) >>=
      fun items => pure (.tokens (handed handler items)) : Procedure σ Expansion).Reads command s [t] []
        (.ok (.tokens (handed handler found))) := by
    intro handler
    refine reads_argument.bind_ok ?_
    rw [hfound]
    exact (reads_ofExcept (.ok found)).map _
  unfold ListParser.run ListParser.handler arguments
  cases hreads : p.readsHandler with
  | false => exact hsplit standardHandler
  | true =>
    have hname : (Procedure.name true : Procedure σ Text).Reads command s ['\\' :: handler, t] [t] (.ok handler) :=
      s.name_handler command true (hhandler hreads) ▸ reads_name true
    show (Procedure.name true >>= _ : Procedure σ Expansion).Reads command s ['\\' :: handler, t] [] _
    exact Reads.bind_ok hname (hsplit handler)

end ListParser

namespace Session

/-- A declared parser splits its balanced argument, and the calls that it expands to are read back as the handler and
the items, with nothing left behind them. -/
theorem readings_runText_declared [Memory] {s : Session} {cs : Text} {p : ListParser}
    (hbuiltin : Command.lookup? cs = none) (hparser : s.parser? cs = some p) (hsep : ∀ c ∈ p.separator, Plain c)
    {handler t : Text} (hhandler : p.readsHandler = true → IsHandler handler) (ht : IsBalanced t) :
    ∃ source found, (s.runText cs (p.call handler t)).1 = .ok (.tokens source) ∧
      Separated.items p.separator t = .ok found ∧
      ∀ command, readings command (2 * found.length) ⟨source⟩ = (.ok (calls (p.handler handler) found), ⟨[]⟩) := by
  obtain ⟨found, hfound, hbalanced⟩ := Separated.exists_items_eq_ok hsep ht
  refine ⟨handed (p.handler handler) found, found, ?_, hfound, fun command => ?_⟩
  · obtain ⟨later, hrun, -⟩ := ListParser.reads_run hhandler hfound (groups (p.arguments handler t))
      (gives_groups (ListParser.isBalanced_of_mem_arguments hhandler ht))
    show ((perform cs).run ('\\' :: cs) ⟨s, Scanner.mk (p.call handler t)⟩).1 = _
    rw [run_perform_declared hbuiltin hparser, ListParser.call_eq, ← groups, hrun]
  · exact (readings_handed_iff (ListParser.isHandler_handler hhandler)).2 hbalanced

/-- A parser that reads a handler, called with an opening brace as the handler, on a text with a separator in a group
and one behind a backslash. -/
theorem readings_runText_each :
    let _ : Memory := .upTo 4096
    let s := ((fresh .standard).runText "DeclareListParser".toList "*\\each,".toList).2
    let p : ListParser := ⟨[','], true⟩
    let t := "a,{b,c}, \\,d".toList
    Command.lookup? "each".toList = none ∧ s.parser? "each".toList = some p ∧ (∀ c ∈ p.separator, Plain c) ∧
      (p.readsHandler = true → IsHandler ['{']) ∧ IsBalanced t ∧
      ∃ source, (s.runText "each".toList (p.call ['{'] t)).1 = .ok (.tokens source) ∧
        readings [] 6 ⟨source⟩ = (.ok [['\\', '{'], "a".toList, ['\\', '{'], "b,c".toList, ['\\', '{'], "\\,d".toList],
          ⟨[]⟩) := by
  have hitems : Separated.items [','] "a,{b,c}, \\,d".toList = .ok ["a".toList, "b,c".toList, "\\,d".toList] := by
    cbv
  intro _ s p t
  have hbuiltin : Command.lookup? "each".toList = none := by decide
  have hparser : s.parser? "each".toList = some p := by rfl
  have hsep : ∀ c ∈ p.separator, Plain c := List.forall_mem_singleton.2 (by decide)
  have hhandler : p.readsHandler = true → IsHandler ['{'] := fun _ => .inl ⟨'{', rfl, by decide⟩
  have ht : IsBalanced t := by decide
  refine ⟨hbuiltin, hparser, hsep, hhandler, ht, ?_⟩
  obtain ⟨source, found, hrun, hfound, hread⟩ := readings_runText_declared hbuiltin hparser hsep hhandler ht
  rw [hitems] at hfound
  cases hfound
  exact ⟨source, hrun, hread []⟩

end Session
end DocState
