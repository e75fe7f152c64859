import DocState.Proofs.Commands.Reading
import DocState.Proofs.Decimals.Leading
import DocState.Proofs.Readback.CounterNames

/-!
# A decimal integer for a counter

One command gives a counter the number at the start of an argument, another one the value of an expression.

* `Session.Assigned s name v run`, `Session.Refused s e run`: a command has given the counter the value, or has left
  everything as it was.
* `Session.settled_setcounter`, `Session.settled_defcounter`: the two commands on any source.
* `Session.assigned_decimal`: what they make of a decimal integer.
-/

namespace DocState

open Procedure

variable {σ : Type} [ArgumentSupply σ] {s : Session} {source : σ} {raw text : Text} {rest : List Text}

namespace Counters

variable {cs : Counters} {name : Text} {c : Counter}

theorem exists_place_of_find (h : cs.find name = .ok c) : ∃ i, cs.place name = .ok i ∧ cs.value name = .ok c.value := by
  have hvalue : cs.value name = .ok c.value := by
    rw [value, h]
    rfl
  obtain ⟨i, -, hplace, -⟩ := value_eq_ok_iff.1 hvalue
  exact ⟨i, hplace, hvalue⟩

/-- A counter that is there takes every value. -/
theorem exists_run_set (h : cs.find name = .ok c) (v : Number) :
    ∃ cs', (set name v).run cs = .ok () cs' ∧ cs'.value name = .ok v := by
  obtain ⟨i, hplace, hvalue⟩ := exists_place_of_find h
  refine ⟨cs.revalue (only i fun _ => v), by rw [run_set, hplace], ?_⟩
  rw [value_revalue hplace hvalue, only, if_pos rfl]

end Counters

namespace Session

/-- The command is accepted, and what it leaves is the session with the value in the counter. -/
structure Assigned (s : Session) (name : Text) (v : Number) (run : Except Error Expansion × Situation σ) : Prop where
  accepted : run.1 = .ok .nothing
  session : run.2.session = { s with counters := (Counters.set name v).after s.counters }
  value : run.2.session.counters.value name = .ok v

/-- The command is refused with this error, and nothing has changed. -/
structure Refused (s : Session) (e : Error) (run : Except Error Expansion × Situation σ) : Prop where
  result : run.1 = .error e
  session : run.2.session = s

/-- What becomes of a value that has been read for a counter, or could not be read. -/
def Settled (s : Session) (name : Text) (run : Except Error Expansion × Situation σ) : Except Error Number → Prop
  | .ok v => s.Assigned name v run
  | .error e => s.Refused e run

/-- A command that reads a counter and then a value, and gives the counter the value. -/
theorem settled_of_reading {command : Text} {value : Procedure σ Number} {result : Except Error Number}
    (hvalue : value.Reads command s (text :: rest) rest result) (hsource : Gives (raw :: text :: rest) source)
    {c : Counter} (hc : s.counters.find raw.trim = .ok c) :
    s.Settled raw.trim (((counter >>= fun name => value >>= fun v => changeCounters (Counters.set name v)) >>=
      fun _ => pure Expansion.nothing : Procedure σ Expansion).run command ⟨s, source⟩) result := by
  obtain ⟨i, hplace, -⟩ := Counters.exists_place_of_find hc
  obtain ⟨source₁, hname, hrest⟩ := reads_counter source hsource
  rw [hplace] at hname hrest
  obtain ⟨source₂, hread, -⟩ := hvalue source₁ (hrest raw.trim rfl)
  rw [run_then_pure, run_bind_of_ok hname]
  cases result with
  | ok v =>
    obtain ⟨counters, hset, hafter⟩ := Counters.exists_run_set hc v
    rw [run_bind_of_ok hread, run_changeCounters, Update.outcome, hset]
    refine ⟨rfl, rfl, ?_⟩
    rw [Update.after_of_run_ok hset]
    exact hafter
  | error e =>
    rw [run_bind, hread]
    exact ⟨rfl, rfl⟩

theorem settled_setcounter [Memory] (hsource : Gives (raw :: text :: rest) source) {c : Counter}
    (hc : s.counters.find raw.trim = .ok c) :
    s.Settled raw.trim (s.run "setcounter".toList source) (Number.leading text) :=
  settled_of_reading reads_number hsource hc

theorem settled_defcounter [Memory] (hsource : Gives (raw :: text :: rest) source) {c : Counter}
    (hc : s.counters.find raw.trim = .ok c) :
    s.Settled raw.trim (s.run "defcounter".toList source) (s.integer text) :=
  settled_of_reading reads_integer hsource hc

/-- A decimal integer is read as it is by the one command and as the nearest double by the other one, in every mode.
That double is a number too, or lies just beyond the greatest one and is refused.  So the two leave the same value if
and only if the integer is a double, as all integers up to `2 ^ 53` are. -/
theorem assigned_decimal [Memory] (hsource : Gives (raw :: text :: rest) source) {c : Counter}
    (hc : s.counters.find raw.trim = .ok c) {n : Number} (htext : Decimal.Denotes text n.toInt) :
    let set := s.run "setcounter".toList source
    let define := s.run "defcounter".toList source
    let nearest := Double.rounded n.toInt
    (Number.leading text = .ok n ∧ s.Assigned raw.trim n set) ∧
    (∃ result, (∀ division, Expression.integer division text = result) ∧ s.Settled raw.trim define result ∧
      ((∃ v, result = .ok v ∧ v.toInt = nearest) ∨
        result = .error (.invalidNumber text) ∧ Number.highest < nearest)) ∧
    ((∃ x, Double.value? x = some (nearest : Rat)) ∧
      ∀ x v, Double.value? x = some v → |(n.toInt : Rat) - nearest| ≤ |(n.toInt : Rat) - v|) ∧
    (s.Assigned raw.trim n define ↔ ∃ x, Double.value? x = some (n.toInt : Rat)) ∧
    (n.toInt.natAbs ≤ 9007199254740992 → s.Assigned raw.trim n define) := by
  intro set define nearest
  have hsmall := n.log2_natAbs_toInt_le
  have hleading : Number.leading text = .ok n := Number.leading_of_denotes htext
  have hset : s.Settled raw.trim set (Number.leading text) := settled_setcounter hsource hc
  have hdefine : s.Settled raw.trim define (s.integer text) := settled_defcounter hsource hc
  obtain ⟨result, hresult, hcases⟩ := Expression.exists_integer_of_denotes htext
  rw [hleading] at hset
  rw [show s.integer text = result from hresult _] at hdefine
  have hself : Double.rounded n.toInt = n.toInt → s.Assigned raw.trim n define := by
    intro hself
    obtain ⟨v, rfl, hv⟩ | ⟨-, hbeyond⟩ := hcases
    · rw [hself] at hv
      rwa [Int64.toInt_inj.1 hv] at hdefine
    · exact absurd n.toInt_le_highest (Int.not_le.2 (hself ▸ hbeyond))
  refine ⟨⟨hleading, hset⟩, ⟨result, hresult, hdefine, hcases⟩, ?_, ?_, ?_⟩
  · exact ⟨Double.exists_value?_rounded _ hsmall, fun x v hx => Double.abs_sub_rounded_le _ hx⟩
  · rw [← Double.rounded_eq_self_iff _ hsmall]
    refine ⟨fun hassigned => ?_, hself⟩
    obtain ⟨v, rfl, hv⟩ | ⟨rfl, -⟩ := hcases
    · have hsame : n = v := Except.ok.inj (hassigned.value.symm.trans (Assigned.value hdefine))
      exact hv.symm.trans (congrArg Int64.toInt hsame.symm)
    · have hrefused := (Refused.result hdefine).symm.trans hassigned.accepted
      cases hrefused
  · exact fun hbound => hself (Double.rounded_of_natAbs_le hbound)

/-- The least number is a double. -/
theorem assigned_decimal_lowest :
    let _ : Memory := .upTo 4096
    let s := ((fresh .standard).runText "newcounter".toList ['c']).2
    let n : Number := Int64.minValue
    let source := Scanner.groups [['c'], n.text]
    Gives [['c'], n.text] source ∧ s.counters.find (Text.trim ['c']) = .ok ⟨['c'], 0, none, [], .plain⟩ ∧
      Decimal.Denotes n.text n.toInt ∧ s.Assigned (Text.trim ['c']) n (s.run "setcounter".toList source) ∧
      s.Assigned (Text.trim ['c']) n (s.run "defcounter".toList source) := by
  intro _ s n source
  have hsource : Gives [['c'], n.text] source := Scanner.gives_groups (by decide)
  have hc : s.counters.find (Text.trim ['c']) = .ok ⟨['c'], 0, none, [], .plain⟩ := by rfl
  have htext : Decimal.Denotes n.text n.toInt := Decimal.denotes_ofInt n.toInt
  have hdouble : ∃ x, Double.value? x = some (n.toInt : Rat) :=
    ⟨_, Double.value?_neg_ofDecimal (m := 9223372036854775808) (by decide)⟩
  obtain ⟨⟨-, hset⟩, -, -, hdefine, -⟩ := assigned_decimal hsource hc htext
  exact ⟨hsource, hc, htext, hset, hdefine.2 hdouble⟩

/-- The least integer that is no double, and the greatest number, which is rounded beyond itself. -/
theorem not_assigned_odd :
    let _ : Memory := .upTo 4096
    let s := ((fresh .standard).runText "newcounter".toList ['c']).2
    (s.runText "setcounter".toList "{c}{9007199254740993}".toList).2.counters.value ['c'] = .ok 9007199254740993 ∧
      (s.runText "defcounter".toList "{c}{9007199254740993}".toList).2.counters.value ['c'] = .ok 9007199254740992 ∧
      (s.runText "setcounter".toList "{c}{9223372036854775807}".toList).1 = .ok .nothing ∧
      (s.runText "defcounter".toList "{c}{9223372036854775807}".toList).1 =
        .error (.invalidNumber "9223372036854775807".toList) := by
  exact ⟨by decide +kernel, by decide +kernel, by decide +kernel, by decide +kernel⟩

end Session
end DocState
