import DocState.Proofs.Expression.Deferral
import DocState.Proofs.Expression.Infix

/-!
# What is kept from the lexemes of an expression to its value

Lexemes become tokens, tokens become items in postfix order, and items leave numbers on a stack.  On the way nothing
but signs and parentheses goes away, and nothing is added, whether the expression is well-formed or not.

* `Step place m out place'`: at `place`, the reader of lexemes meets `m`, writes `out` and goes on at `place'`.
  `Step.assemble_cons`: what follows does not matter.  `assemble_cons`: the reader does nothing else, unless a literal
  denotes no number.  `assemble_eq_error_iff`: the first such literal is the error.
* `ClosesGroups depth tokens`: the parentheses close `depth` groups more than they open, and never more at any time.
  `exists_arrange_iff`: such tokens are put in order, and no others.
* `length_of_runItems`: each number makes the stack higher by one, each operation with two operands lower by one.
-/

namespace DocState
namespace Expression

/-! ## One lexeme -/

/-- The mark that a sign is. -/
def Sign.mark : Sign → Mark
  | .plus => .plus
  | .minus => .minus

/-- The mark that a multiplication or division sign is. -/
def Scaling.mark : Scaling → Mark
  | .times => .times
  | .over => .over

/-- At a place, the reader meets a lexeme, writes tokens, and goes on at another place. -/
inductive Step : Place → Lexeme → List Token → Place → Prop
  /-- Where an operand may begin, a sign is held back. -/
  | sign (s : Sign) (odd : Bool) : Step (.operand odd) (.mark s.mark) [] (.operand (odd ^^ Sign.odd [s]))
  /-- Behind an operand, a sign is an operation. -/
  | sum (s : Sign) : Step .operation (.mark s.mark) [.operator (.binary s.op)] (.operand false)
  | scale (s : Scaling) (place : Place) :
    Step place (.mark s.mark) (place.sign ++ [.operator (.binary s.op)]) (.operand false)
  | opening (place : Place) : Step place (.mark .opening) (place.sign ++ [.opening]) (.operand false)
  | closing (place : Place) : Step place (.mark .closing) (place.sign ++ [.closing]) .operation
  | literal (l : Literal) (place : Place) : Step place (.literal l.text) (place.sign ++ [.number l.value]) .operation

/-- The step does not depend on the lexemes that follow. -/
theorem Step.assemble_cons {place place' : Place} {m : Lexeme} {out : List Token} (h : Step place m out place')
    (rest : List Lexeme) : assemble place (m :: rest) = (out ++ ·) <$> assemble place' rest := by
  cases h with
  | sign s odd =>
    cases s with
    | plus =>
      rw [show (odd ^^ Sign.odd [.plus]) = odd from Bool.xor_false odd]
      exact (id_map (assemble (.operand odd) rest)).symm
    | minus =>
      rw [show (odd ^^ Sign.odd [.minus]) = !odd from Bool.xor_true odd]
      exact (id_map (assemble (.operand !odd) rest)).symm
  | sum s => cases s <;> rfl
  | scale s => cases s <;> rcases place with (_ | _) | _ <;> rfl
  | opening => rcases place with (_ | _) | _ <;> rfl
  | closing => rcases place with (_ | _) | _ <;> rfl
  | literal l =>
    rcases place with (_ | _) | _ <;> simp [assemble, literalValue, l.denotes, bind, Except.bind, Place.sign]

theorem Step.denotes {place place' : Place} {text : Text} {out : List Token}
    (h : Step place (.literal text) out place') : Double.ofLiteral? text ≠ none := by
  cases h with
  | literal l => exact fun hnone => nomatch hnone.symm.trans l.denotes

/-- The first lexeme is a literal that denotes no number, or it is met in one step. -/
theorem assemble_cons (place : Place) (m : Lexeme) (rest : List Lexeme) :
    (∃ text, m = .literal text ∧ Double.ofLiteral? text = none ∧
      assemble place (m :: rest) = .error (.invalidNumber text)) ∨
    ∃ out place', Step place m out place' ∧ assemble place (m :: rest) = (out ++ ·) <$> assemble place' rest := by
  have hmet : ∀ {out place'}, Step place m out place' →
      ∃ out place', Step place m out place' ∧ assemble place (m :: rest) = (out ++ ·) <$> assemble place' rest :=
    fun hstep => ⟨_, _, hstep, hstep.assemble_cons rest⟩
  cases m with
  | literal text =>
    cases hvalue : Double.ofLiteral? text with
    | none =>
      refine .inl ⟨text, rfl, hvalue, ?_⟩
      cases place <;> simp [assemble, literalValue, hvalue, bind, Except.bind]
    | some x => exact .inr (hmet (.literal ⟨text, x, hvalue⟩ place))
  | mark m =>
    refine .inr ?_
    cases m with
    | plus =>
      cases place with
      | operand odd => exact hmet (.sign .plus odd)
      | operation => exact hmet (.sum .plus)
    | minus =>
      cases place with
      | operand odd => exact hmet (.sign .minus odd)
      | operation => exact hmet (.sum .minus)
    | times => exact hmet (.scale .times place)
    | «over» => exact hmet (.scale .over place)
    | opening => exact hmet (.opening place)
    | closing => exact hmet (.closing place)

/-- Where tokens are read, the first lexeme is met in one step. -/
theorem exists_step {place : Place} {m : Lexeme} {rest : List Lexeme} {tokens : List Token}
    (h : assemble place (m :: rest) = .ok tokens) :
    ∃ out place' later, Step place m out place' ∧ assemble place' rest = .ok later ∧ tokens = out ++ later := by
  obtain ⟨text, -, -, herror⟩ | ⟨out, place', hstep, hread⟩ := assemble_cons place m rest
  · rw [herror] at h
    cases h
  · rw [hread] at h
    cases hrest : assemble place' rest with
    | error e =>
      rw [hrest] at h
      cases h
    | ok later =>
      rw [hrest] at h
      cases h
      exact ⟨out, place', later, hstep, hrest, rfl⟩

/-- No tokens are read if and only if a literal denotes no number; the first one of this kind is at fault. -/
theorem assemble_eq_error_iff {place : Place} {lexemes : List Lexeme} {e : Error} :
    assemble place lexemes = .error e ↔
      ∃ before text after, lexemes = before ++ .literal text :: after ∧ Double.ofLiteral? text = none ∧
        (∀ text', .literal text' ∈ before → Double.ofLiteral? text' ≠ none) ∧ e = .invalidNumber text := by
  constructor
  · intro h
    induction lexemes generalizing place with
    | nil => cases place <;> cases h
    | cons m rest ih =>
      obtain ⟨text, rfl, hvalue, herror⟩ | ⟨out, place', hstep, hread⟩ := assemble_cons place m rest
      · rw [herror] at h
        cases h
        exact ⟨[], text, rest, rfl, hvalue, nofun, rfl⟩
      · cases hrest : assemble place' rest with
        | error e' =>
          rw [hread, hrest] at h
          cases h
          obtain ⟨before, text, after, rfl, hvalue, hbefore, rfl⟩ := ih hrest
          refine ⟨m :: before, text, after, rfl, hvalue, fun text' hmem => ?_, rfl⟩
          rcases List.mem_cons.1 hmem with rfl | hmem
          · exact hstep.denotes
          · exact hbefore text' hmem
        | ok later =>
          rw [hread, hrest] at h
          cases h
  · rintro ⟨before, text, after, rfl, hvalue, hbefore, rfl⟩
    induction before generalizing place with
    | nil => cases place <;> simp [assemble, literalValue, hvalue, bind, Except.bind]
    | cons m before ih =>
      obtain ⟨text', rfl, hvalue', -⟩ | ⟨out, place', -, hread⟩ :=
        assemble_cons place m (before ++ .literal text :: after)
      · exact absurd hvalue' (hbefore text' List.mem_cons_self)
      · rw [List.cons_append, hread, ih fun text' hmem => hbefore text' (List.mem_cons_of_mem m hmem)]
        rfl

/-! ## Parentheses -/

/-- The tokens close the groups that they open and `depth` groups that are open before them, and none besides. -/
def ClosesGroups : Nat → List Token → Prop
  | depth, [] => depth = 0
  | depth, .opening :: rest => ClosesGroups (depth + 1) rest
  | 0, .closing :: _ => False
  | depth + 1, .closing :: rest => ClosesGroups depth rest
  | depth, _ :: rest => ClosesGroups depth rest

/-- The number of groups that wait for their end. -/
def Pending.depth (stack : List Pending) : Nat := (stack.map token).count .opening

theorem count_opening_map_token (items : List Item) : (items.map Item.token).count .opening = 0 := by
  refine List.count_eq_zero.2 fun hmem => ?_
  obtain ⟨item, -, hitem⟩ := List.mem_map.1 hmem
  cases item <;> cases hitem

theorem Pending.depth_takeBefore (op : Operator) (stack : List Pending) :
    depth (takeBefore op stack).2 = depth stack := by
  rw [depth, depth, map_token_takeBefore op stack, List.count_append, count_opening_map_token, Nat.zero_add]

theorem Pending.depth_opening (stack : List Pending) : depth (.opening :: stack) = depth stack + 1 := by
  simp [depth, token]

theorem Pending.depth_operator (op : Operator) (stack : List Pending) :
    depth (.operator op :: stack) = depth stack := by
  simp [depth, token]

theorem closesGroups_of_arrange {stack : List Pending} {tokens : List Token} {items : List Item}
    (h : arrange stack tokens = some items) : ClosesGroups (Pending.depth stack) tokens := by
  induction tokens generalizing stack items with
  | nil =>
    show Pending.depth stack = 0
    rw [Pending.depth, Pending.map_token_takeAll? h, count_opening_map_token]
  | cons token rest ih =>
    cases token with
    | number x =>
      obtain ⟨later, hlater, -⟩ := Option.map_eq_some_iff.1 h
      simpa [ClosesGroups] using ih hlater
    | operator op =>
      obtain ⟨later, hlater, -⟩ := Option.map_eq_some_iff.1 h
      have hrest := ih hlater
      rw [Pending.depth_operator, Pending.depth_takeBefore] at hrest
      simpa [ClosesGroups] using hrest
    | opening =>
      rw [ClosesGroups, ← Pending.depth_opening]
      exact ih h
    | closing =>
      obtain ⟨⟨out, kept⟩, hgroup, hmap⟩ := Option.bind_eq_some_iff.1 h
      obtain ⟨later, hlater, -⟩ := Option.map_eq_some_iff.1 hmap
      have hdepth : Pending.depth stack = Pending.depth kept + 1 := by
        rw [Pending.depth, Pending.map_token_takeGroup? hgroup, List.count_append, count_opening_map_token]
        simp [Pending.depth]
      rw [hdepth, ClosesGroups]
      exact ih hlater

theorem Pending.exists_takeAll? {stack : List Pending} (h : depth stack = 0) :
    ∃ items, takeAll? stack = some items := by
  induction stack with
  | nil => exact ⟨[], rfl⟩
  | cons top below ih =>
    cases top with
    | opening =>
      rw [depth_opening] at h
      cases h
    | operator op =>
      obtain ⟨items, hitems⟩ := ih (by rwa [depth_operator] at h)
      exact ⟨_, congrArg (Option.map _) hitems⟩

theorem Pending.exists_takeGroup? {stack : List Pending} {k : Nat} (h : depth stack = k + 1) :
    ∃ out kept, takeGroup? stack = some (out, kept) ∧ depth kept = k := by
  induction stack with
  | nil => cases h
  | cons top below ih =>
    cases top with
    | opening =>
      rw [depth_opening] at h
      exact ⟨[], below, rfl, Nat.succ.inj h⟩
    | operator op =>
      obtain ⟨out, kept, hgroup, hkept⟩ := ih (by rwa [depth_operator] at h)
      exact ⟨_, kept, congrArg (Option.map _) hgroup, hkept⟩

/-- Tokens are put in order exactly if they close the groups that are open and those that they open. -/
theorem exists_arrange_iff {stack : List Pending} {tokens : List Token} :
    (∃ items, arrange stack tokens = some items) ↔ ClosesGroups (Pending.depth stack) tokens := by
  refine ⟨fun ⟨items, h⟩ => closesGroups_of_arrange h, fun h => ?_⟩
  induction tokens generalizing stack with
  | nil => exact Pending.exists_takeAll? h
  | cons token rest ih =>
    cases token with
    | number x =>
      have hrest : ClosesGroups (Pending.depth stack) rest := by simpa [ClosesGroups] using h
      obtain ⟨items, hitems⟩ := ih hrest
      exact ⟨_, congrArg (Option.map _) hitems⟩
    | operator op =>
      have hrest : ClosesGroups (Pending.depth (.operator op :: (Pending.takeBefore op stack).2)) rest := by
        rw [Pending.depth_operator, Pending.depth_takeBefore]
        simpa [ClosesGroups] using h
      obtain ⟨items, hitems⟩ := ih hrest
      exact ⟨_, congrArg (Option.map _) hitems⟩
    | opening =>
      rw [ClosesGroups, ← Pending.depth_opening] at h
      exact ih h
    | closing =>
      cases hdepth : Pending.depth stack with
      | zero =>
        rw [hdepth] at h
        exact absurd h id
      | succ k =>
        rw [hdepth] at h
        obtain ⟨out, kept, hgroup, hkept⟩ := Pending.exists_takeGroup? hdepth
        have hrest : ClosesGroups (Pending.depth kept) rest := hkept ▸ h
        obtain ⟨items, hitems⟩ := ih hrest
        exact ⟨out ++ items, by simp [arrange, hgroup, hitems]⟩

/-! ## The height of the stack -/

/-- Whether a token is an operation with two operands. -/
def Token.isBinary : Token → Bool
  | .operator (.binary _) => true
  | _ => false

/-- How many numbers there are. -/
def numbers (tokens : List Token) : Nat := tokens.countP Token.isNumber

/-- How many operations with two operands there are. -/
def binaries (tokens : List Token) : Nat := tokens.countP Token.isBinary

theorem numbers_cons (t : Token) (tokens : List Token) :
    numbers (t :: tokens) = numbers tokens + if t.isNumber then 1 else 0 := List.countP_cons

theorem binaries_cons (t : Token) (tokens : List Token) :
    binaries (t :: tokens) = binaries tokens + if t.isBinary then 1 else 0 := List.countP_cons

theorem length_of_runItems {items : List Item} {stack after : List Float} (h : runItems items stack = some after) :
    after.length + binaries (items.map Item.token) = stack.length + numbers (items.map Item.token) := by
  fun_induction runItems items stack with
  | case1 stack =>
    cases h
    rfl
  | case2 x rest stack ih =>
    have hrest := ih h
    simp only [List.map_cons, Item.token, numbers_cons, binaries_cons, Token.isNumber, Token.isBinary] at hrest ⊢
    simp only [List.length_cons, if_true, Bool.false_eq_true, if_false] at hrest ⊢
    omega
  | case3 rest x stack ih => exact ih h
  | case4 op rest b a stack ih =>
    have hrest := ih h
    simp only [List.map_cons, Item.token, numbers_cons, binaries_cons, Token.isNumber, Token.isBinary] at hrest ⊢
    simp only [List.length_cons, if_true, Bool.false_eq_true, if_false] at hrest ⊢
    omega
  | case5 => cases h

/-- What is counted of the tokens is counted of the items, parentheses apart. -/
theorem countP_map_token_of_arrange {p : Token → Bool} (hp : ∀ t, p t = true → t.isParenthesis = false)
    {tokens : List Token} {items : List Item} (h : arrange [] tokens = some items) :
    (items.map Item.token).countP p = tokens.countP p := by
  rw [(arrange_perm h).countP_eq p, List.countP_filter]
  refine List.countP_congr fun t _ => ?_
  simp only [Bool.and_eq_true, Bool.not_eq_true']
  exact ⟨And.left, fun ht => ⟨ht, hp t ht⟩⟩

/-- Tokens that leave one number have one number more than operations with two operands. -/
theorem numbers_eq_of_runItems {tokens : List Token} {items : List Item} {x : Float}
    (harrange : arrange [] tokens = some items) (hrun : runItems items [] = some [x]) :
    numbers tokens = binaries tokens + 1 := by
  have hheight := length_of_runItems hrun
  have hnumbers : numbers (items.map Item.token) = numbers tokens := by
    refine countP_map_token_of_arrange (fun t ht => ?_) harrange
    cases t <;> first | rfl | cases ht
  have hbinaries : binaries (items.map Item.token) = binaries tokens := by
    refine countP_map_token_of_arrange (fun t ht => ?_) harrange
    cases t <;> first | rfl | cases ht
  rw [hnumbers, hbinaries] at hheight
  simp only [List.length_singleton, List.length_nil] at hheight
  omega

end Expression
end DocState
