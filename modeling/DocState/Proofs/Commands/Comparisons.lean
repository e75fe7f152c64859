import DocState.Proofs.Commands.Reading

/-!
# Tests of numbers

Each relation has a test of its own, and there is one more test that reads the symbol of the relation between its two
expressions.

* `Relation.symbol`, `Relation.command`: the symbols and the names of the tests.  `Relation.negation`: the relation that
  holds otherwise.
* `Session.compare`, `Session.parity`: the condition that a test decides, or the error of an expression.
* `Session.runText_compare`, `Session.runText_ifnumcomp`: both tests for a relation decide it.
* `Opposite`: tests that fail alike or choose opposite branches.
* `Session.comparisons_agree`: the tests on the same arguments.
-/

namespace DocState

open Braces Procedure

/-! ## Relations -/

namespace Relation

/-- The symbol of a relation. -/
def symbol : Relation → Text
  | .equal => "=".toList
  | .notEqual => "!=".toList
  | .less => "<".toList
  | .greater => ">".toList
  | .lessEqual => "<=".toList
  | .greaterEqual => ">=".toList

/-- The name of the test for a relation. -/
def command : Relation → Text
  | .equal => "ifnumequal".toList
  | .notEqual => "ifnumneq".toList
  | .less => "ifnumless".toList
  | .greater => "ifnumgreater".toList
  | .lessEqual => "ifnumleq".toList
  | .greaterEqual => "ifnumgeq".toList

/-- The relation that holds when this one does not. -/
def negation : Relation → Relation
  | .equal => .notEqual
  | .notEqual => .equal
  | .less => .greaterEqual
  | .greater => .lessEqual
  | .lessEqual => .greater
  | .greaterEqual => .less

/-- The relations of which exactly one holds between two numbers. -/
def orders : List Relation := [.less, .equal, .greater]

variable {r : Relation} {m n : Number} {before after : Text}

theorem holds_negation : r.negation.holds m n = !r.holds m n := by
  cases r <;> simp [negation, holds, bne, ← Int64.not_lt]

theorem exists_orders (m n : Number) : ∃ r ∈ orders, ∀ r' ∈ orders, r'.holds m n = (r' == r) := by
  rcases Int.lt_trichotomy m.toInt n.toInt with h | h | h
  · have hless : m < n := Int64.lt_iff_toInt_lt.2 h
    have hne : m ≠ n := Int64.ne_of_lt hless
    have hnot : ¬ n < m := Int64.lt_asymm hless
    exact ⟨.less, by decide, by simp [orders, holds, hless, hne, hnot]⟩
  · obtain rfl := Int64.toInt_inj.1 h
    exact ⟨.equal, by decide, by simp [orders, holds, Int64.lt_irrefl]⟩
  · have hgreater : n < m := Int64.lt_iff_toInt_lt.2 h
    have hne : m ≠ n := (Int64.ne_of_lt hgreater).symm
    have hnot : ¬ m < n := Int64.lt_asymm hgreater
    exact ⟨.greater, by decide, by simp [orders, holds, hgreater, hne, hnot]⟩

theorem lookup?_command (r : Relation) : Command.lookup? r.command = some (.test (.compare (some r))) := by
  cases r <;> decide

/-- A symbol is read with any blanks around it. -/
theorem ofSymbol?_append (r : Relation) (hbefore : ∀ c ∈ before, isBlank c = true)
    (hafter : ∀ c ∈ after, isBlank c = true) : ofSymbol? (before ++ (r.symbol ++ after)) = some r := by
  have hfirst : ∀ c ∈ r.symbol.head?, isBlank c = false := by cases r <;> rintro c ⟨⟩ <;> rfl
  have hlast : ∀ c ∈ r.symbol.getLast?, isBlank c = false := by cases r <;> rintro c ⟨⟩ <;> rfl
  rw [ofSymbol?, Text.trim_append hbefore hafter hfirst hlast]
  cases r <;> rfl

theorem isBalanced_symbol_append (r : Relation) (hbefore : ∀ c ∈ before, isBlank c = true)
    (hafter : ∀ c ∈ after, isBlank c = true) : IsBalanced (before ++ (r.symbol ++ after)) := by
  have hsymbol : ∀ c ∈ r.symbol, Plain c := by cases r <;> simp [symbol, Plain]
  refine isBalanced_of_forall_plain fun c hc => ?_
  rcases List.mem_append.1 hc with hc | hc
  · exact plain_of_isBlank (hbefore c hc)
  · exact (List.mem_append.1 hc).elim (hsymbol c) fun hc => plain_of_isBlank (hafter c hc)

end Relation

namespace Parity

/-- The name of the test for a parity. -/
def command : Parity → Text
  | .even => "ifnumeven".toList
  | .odd => "ifnumodd".toList

theorem lookup?_command (p : Parity) : Command.lookup? p.command = some (.test (.parity p)) := by
  cases p <;> decide

end Parity

/-! ## Conditions -/

namespace Session

/-- Whether the values of two expressions are in a relation.  The error of the first one comes first. -/
def compare (s : Session) (r : Relation) (a b : Text) : Except Error Bool := do
  let m ← s.integer a
  let n ← s.integer b
  return r.holds m n

/-- Whether the value of an expression has a parity. -/
def parity (s : Session) (p : Parity) (a : Text) : Except Error Bool := p.holds <$> s.integer a

variable {s : Session} {a b : Text}

theorem compare_negation (r : Relation) : s.compare r.negation a b = (!·) <$> s.compare r a b := by
  simp only [compare, Relation.holds_negation, map_eq_pure_bind, bind_assoc, pure_bind]

theorem parity_odd : s.parity .odd a = (!·) <$> s.parity .even a := by
  rw [parity, parity, Functor.map_map]
  rfl

end Session

variable {command a b symbol : Text} {s : Session} {rest : List Text} {σ : Type} [ArgumentSupply σ]

namespace Test

theorem reads_compare (r : Relation) : (Test.holds (.compare (some r)) : Procedure σ Bool).Reads command s
    (a :: b :: rest) rest (s.compare r a b) :=
  reads_integer.bind fun m _ => reads_integer.bind fun n _ => reads_pure (r.holds m n)

/-- The symbol is looked up when both expressions have their values. -/
theorem reads_compare_symbol {r : Relation} (hsymbol : Relation.ofSymbol? symbol = some r) :
    (Test.holds (.compare none) : Procedure σ Bool).Reads command s (a :: symbol :: b :: rest) rest
      (s.compare r a b) := by
  refine reads_integer.bind fun m _ => reads_argument.bind_ok (reads_integer.bind fun n _ => ?_)
  rw [hsymbol]
  exact reads_pure (r.holds m n)

theorem reads_parity (p : Parity) : (Test.holds (.parity p) : Procedure σ Bool).Reads command s (a :: rest) rest
    (s.parity p a) :=
  reads_integer.map p.holds

end Test

/-! ## Opposite tests -/

/-- Two tests are refused with the same error, or take opposite ones of the same branches. -/
inductive Opposite (ifTrue ifFalse : Text) : Except Error Expansion → Except Error Expansion → Prop
  | refused (e : Error) : Opposite ifTrue ifFalse (.error e) (.error e)
  | taken (c : Bool) : Opposite ifTrue ifFalse (.ok (.branch c ifTrue ifFalse)) (.ok (.branch (!c) ifTrue ifFalse))

theorem opposite_of_not {ifTrue ifFalse : Text} {x y : Except Error Bool} (h : y = (!·) <$> x) :
    Opposite ifTrue ifFalse ((.branch · ifTrue ifFalse) <$> x) ((.branch · ifTrue ifFalse) <$> y) := by
  subst h
  cases x with
  | error e => exact .refused e
  | ok c => exact .taken c

/-! ## The tests -/

namespace Session

variable {t f before after : Text}

section Balanced

variable [Memory] (ha : IsBalanced a) (hb : IsBalanced b) (ht : IsBalanced t) (hf : IsBalanced f)
include ha ht hf

theorem runText_parity (p : Parity) :
    s.runText p.command ([a, t, f].flatMap braced) = ((.branch · t f) <$> s.parity p a, s) := by
  have hbalanced : ∀ argument ∈ [a, t, f], IsBalanced argument := by simp [ha, ht, hf]
  exact runText_of_reads p.lookup?_command (Test.reads_run (Test.reads_parity p)) hbalanced

include hb

theorem runText_compare (r : Relation) :
    s.runText r.command ([a, b, t, f].flatMap braced) = ((.branch · t f) <$> s.compare r a b, s) := by
  have hbalanced : ∀ argument ∈ [a, b, t, f], IsBalanced argument := by simp [ha, hb, ht, hf]
  exact runText_of_reads r.lookup?_command (Test.reads_run (Test.reads_compare r)) hbalanced

theorem runText_ifnumcomp (r : Relation) (hbefore : ∀ c ∈ before, isBlank c = true)
    (hafter : ∀ c ∈ after, isBlank c = true) :
    s.runText "ifnumcomp".toList ([a, before ++ (r.symbol ++ after), b, t, f].flatMap braced) =
      ((.branch · t f) <$> s.compare r a b, s) := by
  have hname : Command.lookup? "ifnumcomp".toList = some (.test (.compare none)) := by decide
  have hsymbol : Relation.ofSymbol? (before ++ (r.symbol ++ after)) = some r := r.ofSymbol?_append hbefore hafter
  have hbalanced : ∀ argument ∈ [a, before ++ (r.symbol ++ after), b, t, f], IsBalanced argument := by
    simp [ha, hb, ht, hf, r.isBalanced_symbol_append hbefore hafter]
  exact runText_of_reads hname (Test.reads_run (Test.reads_compare_symbol hsymbol)) hbalanced

/-- The test that reads a symbol, with any blanks around it, does what the test for the relation does.  The tests for a
relation and for its negation are opposite on the same arguments, and so are the tests for even and odd.  If the
expressions have values, exactly one of the tests for less, equal and greater takes the first branch. -/
theorem comparisons_agree :
    let test (r : Relation) := s.runText r.command ([a, b, t, f].flatMap braced)
    let parity (p : Parity) := s.runText p.command ([a, t, f].flatMap braced)
    (∀ (r : Relation) (before after : Text), (∀ c ∈ before, isBlank c = true) → (∀ c ∈ after, isBlank c = true) →
      s.runText "ifnumcomp".toList ([a, before ++ (r.symbol ++ after), b, t, f].flatMap braced) = test r) ∧
    (∀ r, Opposite t f (test r).1 (test r.negation).1) ∧
    Opposite t f (parity .even).1 (parity .odd).1 ∧
    ((∃ e, ∀ r, (test r).1 = .error e) ∨
      ∃ r ∈ Relation.orders, ∀ r' ∈ Relation.orders, (test r').1 = .ok (.branch (r' == r) t f)) := by
  intro test parity
  have htest : ∀ r, test r = ((.branch · t f) <$> s.compare r a b, s) := runText_compare ha hb ht hf
  have hparity : ∀ p, parity p = ((.branch · t f) <$> s.parity p a, s) := runText_parity ha ht hf
  refine ⟨fun r before after hbefore hafter => ?_, fun r => ?_, ?_, ?_⟩
  · rw [htest, runText_ifnumcomp ha hb ht hf r hbefore hafter]
  · rw [htest, htest]
    exact opposite_of_not (compare_negation r)
  · rw [hparity, hparity]
    exact opposite_of_not parity_odd
  · -- the expressions have their values, or fail, before the relation is asked
    simp only [htest, compare]
    cases s.integer a with
    | error e => exact .inl ⟨e, fun r => rfl⟩
    | ok m =>
      cases s.integer b with
      | error e => exact .inl ⟨e, fun r => rfl⟩
      | ok n =>
        obtain ⟨r, hr, honly⟩ := Relation.exists_orders m n
        refine .inr ⟨r, hr, fun r' hr' => ?_⟩
        rw [← honly r' hr']
        rfl

end Balanced

/-- Two expressions whose values differ by less than their rounding, and branches with braces in them. -/
theorem comparisons_agree_rounded :
    let _ : Memory := .upTo 4096
    let s := fresh .standard
    let a := "7 / 2".toList
    let b := "2 + 2".toList
    let t := braced "yes".toList
    let f := ['\\', '}']
    IsBalanced a ∧ IsBalanced b ∧ IsBalanced t ∧ IsBalanced f ∧
      s.runText "ifnumcomp".toList ([a, " <=\t".toList, b, t, f].flatMap braced) = (.ok (.branch true t f), s) ∧
      (s.runText "ifnumgreater".toList ([a, b, t, f].flatMap braced)).1 = .ok (.branch false t f) := by
  intro _ s a b t f
  have ha : IsBalanced a := by decide
  have hb : IsBalanced b := by decide
  have ht : IsBalanced t := by decide
  have hf : IsBalanced f := by decide
  obtain ⟨hsymbol, hopposite, -, -⟩ := comparisons_agree (s := s) ha hb ht hf
  have hleq : s.runText "ifnumleq".toList ([a, b, t, f].flatMap braced) = (.ok (.branch true t f), s) := by
    decide +kernel
  have hgreater : Opposite t f (s.runText "ifnumleq".toList ([a, b, t, f].flatMap braced)).1
      (s.runText "ifnumgreater".toList ([a, b, t, f].flatMap braced)).1 := hopposite .lessEqual
  rw [hleq] at hgreater
  refine ⟨ha, hb, ht, hf, ?_, ?_⟩
  · have hblanks := hsymbol .lessEqual [' '] ['\t'] (List.forall_mem_singleton.2 rfl) (List.forall_mem_singleton.2 rfl)
    exact hblanks.trans hleq
  · generalize (s.runText "ifnumgreater".toList ([a, b, t, f].flatMap braced)).1 = result at hgreater
    cases hgreater
    rfl

end Session
end DocState
