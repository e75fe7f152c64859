import DocState.Expression.Integer
import DocState.Proofs.Expression.Infix

/-!
# Well-formed expressions have the postfix order and the value of their trees

The reader of tokens keeps operations on a stack until their operands are complete.  What it has read of a
well-formed part is, at any time, an output and operations still on the stack; together they are the items of the
part.

* `Arranged r stack tokens items`: reading `tokens` above `stack` outputs `items`, except for operations that bind at
  least as tightly as `r` and that are left on the stack.
* `Arranged.binary`, `Arranged.negate`, `Arranged.group`: how parts are put together.
* `arranged_tokens`: the tokens of a derivation are arranged in the postorder of its tree.
* `runItems_postorder`: the postorder of a tree puts the value of the tree on the stack.
* `ofText_infix`: both for the text of a derivation, with blanks anywhere.
-/

namespace DocState
namespace Expression

/-! ## Stacks -/

/-- The operation on top of the stack, if there is one above all parentheses, binds less tightly than `r`. -/
def TopBelow (r : Nat) (stack : List Pending) : Prop :=
  ∀ op ∈ stack.head?, ∀ o, op = Pending.operator o → o.rank < r

theorem TopBelow.mono {r r' : Nat} {stack : List Pending} (h : TopBelow r stack) (hr : r ≤ r') :
    TopBelow r' stack := fun op hop o ho => Nat.lt_of_lt_of_le (h op hop o ho) hr

theorem takeBefore_of_topBelow {op : Operator} {stack : List Pending} (h : TopBelow op.rank stack) :
    Pending.takeBefore op stack = ([], stack) := by
  cases stack with
  | nil => rfl
  | cons top below =>
    cases top with
    | opening => rfl
    | operator o =>
      have hlt : o.rank < op.rank := h _ (by simp) o rfl
      have hprec : o.precedes op = false := by
        simp only [Operator.precedes, Bool.or_eq_false_iff, Bool.and_eq_false_iff, decide_eq_false_iff_not,
          beq_eq_false_iff_ne]
        omega
      simp [Pending.takeBefore, hprec]

/-- An operation with two operands takes what binds at least as tightly off the stack. -/
theorem takeBefore_append {op : BinaryOp} {pend : List Operator} {stack : List Pending}
    (hpend : ∀ o ∈ pend, (Operator.binary op).rank ≤ o.rank) (h : TopBelow (Operator.binary op).rank stack) :
    Pending.takeBefore (.binary op) (pend.map Pending.operator ++ stack) = (pend.map Item.operator, stack) := by
  induction pend with
  | nil => exact takeBefore_of_topBelow h
  | cons o pend ih =>
    have hle := hpend o List.mem_cons_self
    have hprec : o.precedes (.binary op) = true := by
      rcases Nat.lt_or_eq_of_le hle with hlt | heq
      · simp [Operator.precedes, hlt]
      · simp [Operator.precedes, heq]
    rw [List.map_cons, List.cons_append, Pending.takeBefore, hprec,
      ih fun o' ho' => hpend o' (List.mem_cons_of_mem o ho')]
    rfl

theorem takeGroup?_append (pend : List Operator) (stack : List Pending) :
    Pending.takeGroup? (pend.map Pending.operator ++ .opening :: stack) = some (pend.map Item.operator, stack) := by
  induction pend with
  | nil => rfl
  | cons o pend ih => simp [Pending.takeGroup?, ih]

theorem takeAll?_map (pend : List Operator) :
    Pending.takeAll? (pend.map Pending.operator) = some (pend.map Item.operator) := by
  induction pend with
  | nil => rfl
  | cons o pend ih => simp [Pending.takeAll?, ih]

/-! ## Parts of an expression -/

/-- Reading `tokens` above `stack` outputs `items`, except for operations that bind at least as tightly as `r` and are
left on the stack. -/
def Arranged (r : Nat) (stack : List Pending) (tokens : List Token) (items : List Item) : Prop :=
  ∃ (out : List Item) (pend : List Operator), (∀ o ∈ pend, r ≤ o.rank) ∧
    out ++ pend.map Item.operator = items ∧
    ∀ rest, arrange stack (tokens ++ rest) = (arrange (pend.map Pending.operator ++ stack) rest).map (out ++ ·)

theorem Arranged.mono {r r' : Nat} {stack : List Pending} {tokens : List Token} {items : List Item}
    (h : Arranged r stack tokens items) (hr : r' ≤ r) : Arranged r' stack tokens items := by
  obtain ⟨out, pend, hpend, hitems, hread⟩ := h
  exact ⟨out, pend, fun o ho => Nat.le_trans hr (hpend o ho), hitems, hread⟩

theorem arranged_number (r : Nat) (stack : List Pending) (x : Float) :
    Arranged r stack [.number x] [.number x] := by
  refine ⟨[.number x], [], by simp, by simp, fun rest => ?_⟩
  rfl

theorem Arranged.group {r : Nat} {stack : List Pending} {tokens : List Token} {items : List Item}
    (h : Arranged r (.opening :: stack) tokens items) (r' : Nat) :
    Arranged r' stack (.opening :: tokens ++ [.closing]) items := by
  obtain ⟨out, pend, -, rfl, hread⟩ := h
  refine ⟨out ++ pend.map Item.operator, [], by simp, by simp, fun rest => ?_⟩
  have hopen : (.opening :: tokens ++ [.closing]) ++ rest = Token.opening :: (tokens ++ .closing :: rest) := by simp
  rw [hopen, arrange, hread, arrange, takeGroup?_append]
  simp [Option.map_map, Function.comp_def]

theorem Arranged.negate {stack : List Pending} {tokens : List Token} {items : List Item}
    (hstack : TopBelow 3 stack) (h : Arranged 3 (.operator .negate :: stack) tokens items) :
    Arranged 3 stack (.operator .negate :: tokens) (items ++ [.operator .negate]) := by
  obtain ⟨out, pend, hpend, rfl, hread⟩ := h
  refine ⟨out, pend ++ [.negate], fun o ho => ?_, by simp, fun rest => ?_⟩
  · rcases List.mem_append.1 ho with ho | ho
    · exact hpend o ho
    · obtain rfl := List.mem_singleton.1 ho
      decide
  · have htake : Pending.takeBefore .negate stack = ([], stack) := takeBefore_of_topBelow hstack
    rw [List.cons_append, arrange, htake]
    simp only
    rw [hread]
    simp [Function.comp_def]

/-- The left operand is complete when the operation comes, and the operation waits below the right one. -/
theorem Arranged.binary {r r' : Nat} {op : BinaryOp} {stack : List Pending} {left right : List Token}
    {leftItems rightItems : List Item} (hop : (Operator.binary op).rank = r) (hr : r ≤ r')
    (hstack : TopBelow r stack) (hleft : Arranged r stack left leftItems)
    (hright : Arranged r' (.operator (.binary op) :: stack) right rightItems) :
    Arranged r stack (left ++ .operator (.binary op) :: right)
      (leftItems ++ rightItems ++ [.operator (.binary op)]) := by
  obtain ⟨out, pend, hpend, rfl, hread⟩ := hleft
  obtain ⟨out', pend', hpend', rfl, hread'⟩ := hright
  subst hop
  refine ⟨out ++ pend.map Item.operator ++ out', pend' ++ [.binary op], fun o ho => ?_, by simp, fun rest => ?_⟩
  · rcases List.mem_append.1 ho with ho | ho
    · exact Nat.le_trans hr (hpend' o ho)
    · obtain rfl := List.mem_singleton.1 ho
      exact Nat.le_refl _
  · rw [List.append_assoc, List.cons_append, hread, arrange, takeBefore_append hpend hstack]
    simp only
    rw [hread']
    simp [Option.map_map, Function.comp_def]

/-! ## Derivations -/

/-- How tightly the operations of a level bind. -/
def Level.rank : Level → Nat
  | .sum => 1
  | .product => 2
  | .factor => 3
  | .atom => 4

theorem arranged_tokens {l : Level} (e : Infix l) {stack : List Pending} (hstack : TopBelow l.rank stack) :
    Arranged l.rank stack e.tokens e.tree.postorder := by
  induction e generalizing stack with
  | literal l => exact arranged_number _ stack l.value
  | group e ih => exact (ih (by simp [TopBelow])).group _
  | signed signs a ih =>
    rw [Infix.tokens, Infix.tree]
    cases Sign.odd signs with
    | false => exact (ih (hstack.mono (by decide))).mono (by decide)
    | true =>
      refine Arranged.negate hstack ((ih ?_).mono (by decide))
      rintro _ hop o rfl
      obtain rfl : Operator.negate = o := by simpa using hop
      decide
  | factor f ih => exact (ih (hstack.mono (by decide))).mono (by decide)
  | scale t s f iht ihf =>
    have hrank : (Operator.binary s.op).rank = 2 := by cases s <;> rfl
    refine Arranged.binary hrank (Nat.le_succ 2) hstack (iht hstack) (ihf ?_)
    rintro _ hop o rfl
    obtain rfl : Operator.binary s.op = o := by simpa using hop
    cases s <;> decide
  | product t ih => exact (ih (hstack.mono (by decide))).mono (by decide)
  | add e s t ihe iht =>
    have hrank : (Operator.binary s.op).rank = 1 := by cases s <;> rfl
    refine Arranged.binary hrank (Nat.le_succ 1) hstack (ihe hstack) (iht ?_)
    rintro _ hop o rfl
    obtain rfl : Operator.binary s.op = o := by simpa using hop
    cases s <;> decide

/-- An expression read from the start is in postorder. -/
theorem arrange_tokens (e : Infix .sum) : arrange [] e.tokens = some e.tree.postorder := by
  have hstart : TopBelow Level.sum.rank [] := by simp [TopBelow]
  obtain ⟨out, pend, -, hitems, hread⟩ := arranged_tokens e hstart
  have hend := hread []
  rw [List.append_nil, List.append_nil, arrange, takeAll?_map] at hend
  rw [hend, ← hitems]
  rfl

/-- The items of a tree put its value on the stack, whatever follows. -/
theorem runItems_postorder (t : Tree) (rest : List Item) (stack : List Float) :
    runItems (t.postorder ++ rest) stack = runItems rest (t.value :: stack) := by
  induction t generalizing rest stack with
  | number x => rfl
  | negate t ih =>
    rw [Tree.postorder, List.append_assoc, ih]
    rfl
  | binary op left right ihl ihr =>
    rw [Tree.postorder, List.append_assoc, List.append_assoc, ihl, ihr]
    rfl

/-! ## Texts -/

/-- A text that differs from the text of a derivation in blanks only, wherever they stand, has the postfix order and
the value of the tree of the derivation. -/
theorem ofText_infix (e : Infix .sum) {text : Text} (h : text.withoutBlanks = e.text.withoutBlanks) :
    Postfix.ofText text = .ok ⟨text, e.tree.postorder⟩ ∧ Expression.value text = .ok e.tree.value := by
  have htokens : Expression.tokens text = .ok e.tokens :=
    tokens_of_withoutBlanks e (h.trans (withoutBlanks_text e))
  have harranged : Postfix.ofText text = .ok ⟨text, e.tree.postorder⟩ := by
    simp only [Postfix.ofText, htokens, bind, Except.bind, arrange_tokens]
  refine ⟨harranged, ?_⟩
  have hrun := runItems_postorder e.tree [] []
  rw [List.append_nil] at hrun
  unfold Expression.value
  rw [harranged]
  show Postfix.value ⟨text, e.tree.postorder⟩ = _
  rw [Postfix.value, hrun, runItems]

/-- A sign in front of parentheses negates what they group, before it is multiplied. -/
theorem ofText_negated_sum :
    let text := "- (1 + 2)*3".toList
    let one := Double.ofDecimal 1 0
    let two := Double.ofDecimal 2 0
    let three := Double.ofDecimal 3 0
    Postfix.ofText text = .ok ⟨text, [.number one, .number two, .operator (.binary .add), .operator .negate,
      .number three, .operator (.binary .mul)]⟩ ∧
    Expression.value text = .ok (-(one + two) * three) := by
  let one : Literal := ⟨['1'], Double.ofDecimal 1 0, rfl⟩
  let two : Literal := ⟨['2'], Double.ofDecimal 2 0, rfl⟩
  let three : Literal := ⟨['3'], Double.ofDecimal 3 0, rfl⟩
  let inner : Infix .sum := .add (.product (.factor (.signed [] (.literal one)))) .plus
    (.factor (.signed [] (.literal two)))
  let e : Infix .sum := .product (.scale (.factor (.signed [.minus] (.group inner))) .times
    (.signed [] (.literal three)))
  have hblanks : Text.withoutBlanks "- (1 + 2)*3".toList = e.text.withoutBlanks := by decide
  exact ofText_infix e hblanks

end Expression
end DocState
