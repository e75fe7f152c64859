import DocState.Expression.Postfix

/-!
# Infix expressions

The grammar of well-formed arithmetic expressions, by derivations:

    sum     ::=  product  |  sum ('+' | '-') product
    product ::=  factor  |  product ('*' | '/') factor
    factor  ::=  ('+' | '-')* atom
    atom    ::=  literal  |  '(' sum ')'

* `Infix l`: the derivations from level `l`.  `Infix.text`: the text that a derivation derives.
* `Tree`, `Infix.tree`: the operations of an expression with their operands; a sum and a product group to the
  left, and an odd run of signs negates its atom.
* `Tree.postorder`, `Tree.value`: the items of a tree, operations behind their operands, and its value.
* `Infix.tokens`: the tokens of a derivation.  `tokens_of_withoutBlanks`: they are what is read from its text, with
  blanks anywhere.
-/

namespace DocState
namespace Expression

/-! ## Trees -/

/-- Operations and their operands. -/
inductive Tree
  | number (x : Float)
  | negate (t : Tree)
  | binary (op : BinaryOp) (left right : Tree)

namespace Tree

/-- The items of a tree, each operation behind its operands. -/
def postorder : Tree → List Item
  | number x => [.number x]
  | negate t => t.postorder ++ [.operator .negate]
  | binary op left right => left.postorder ++ right.postorder ++ [.operator (.binary op)]

/-- The value of a tree in double arithmetic. -/
def value : Tree → Float
  | number x => x
  | negate t => -t.value
  | binary op left right => op.apply left.value right.value

end Tree

/-! ## Derivations -/

/-- A plus or minus sign. -/
inductive Sign
  | plus
  | minus
deriving DecidableEq, Repr

namespace Sign

/-- The character of a sign. -/
def char : Sign → Char
  | .plus => '+'
  | .minus => '-'

/-- The operation that a sign between two products denotes. -/
def op : Sign → BinaryOp
  | .plus => .add
  | .minus => .sub

/-- Whether a run of signs has an odd number of minus signs. -/
def odd : List Sign → Bool
  | [] => false
  | .plus :: signs => odd signs
  | .minus :: signs => !odd signs

end Sign

/-- A multiplication or division sign. -/
inductive Scaling
  | times
  | over
deriving DecidableEq, Repr

namespace Scaling

/-- The character of a multiplication or division sign. -/
def char : Scaling → Char
  | .times => '*'
  | .over => '/'

/-- The operation that it denotes. -/
def op : Scaling → BinaryOp
  | .times => .mul
  | .over => .div

end Scaling

/-- A text of digits and points that denotes a finite double. -/
structure Literal where
  text : Text
  value : Float
  denotes : Double.ofLiteral? text = some value

/-- The levels of the grammar. -/
inductive Level
  | sum
  | product
  | factor
  | atom
deriving DecidableEq, Repr

/-- The derivations from a level. -/
inductive Infix : Level → Type
  | literal (l : Literal) : Infix .atom
  | group (e : Infix .sum) : Infix .atom
  | signed (signs : List Sign) (a : Infix .atom) : Infix .factor
  | factor (f : Infix .factor) : Infix .product
  | scale (t : Infix .product) (s : Scaling) (f : Infix .factor) : Infix .product
  | product (t : Infix .product) : Infix .sum
  | add (e : Infix .sum) (s : Sign) (t : Infix .product) : Infix .sum

namespace Infix

/-- The text that a derivation derives. -/
def text {l : Level} : Infix l → Text
  | literal l => l.text
  | group e => '(' :: e.text ++ [')']
  | signed signs a => signs.map Sign.char ++ a.text
  | factor f => f.text
  | scale t s f => t.text ++ s.char :: f.text
  | product t => t.text
  | add e s t => e.text ++ s.char :: t.text

/-- The operations of an expression with their operands. -/
def tree {l : Level} : Infix l → Tree
  | literal l => .number l.value
  | group e => e.tree
  | signed signs a => if Sign.odd signs then .negate a.tree else a.tree
  | factor f => f.tree
  | scale t s f => .binary s.op t.tree f.tree
  | product t => t.tree
  | add e s t => .binary s.op e.tree t.tree

/-- The tokens of an expression; a run of signs is worth at most one of them. -/
def tokens {l : Level} : Infix l → List Token
  | literal l => [.number l.value]
  | group e => .opening :: e.tokens ++ [.closing]
  | signed signs a => (Place.operand (Sign.odd signs)).sign ++ a.tokens
  | factor f => f.tokens
  | scale t s f => t.tokens ++ .operator (.binary s.op) :: f.tokens
  | product t => t.tokens
  | add e s t => e.tokens ++ .operator (.binary s.op) :: t.tokens

end Infix

/-! ## Literals -/

/-- The characters of a literal that denotes a number. -/
def isLiteralChar (c : Char) : Bool := c.isDigit || c == '.'

theorem Literal.isRun_parts (l : Literal) :
    Decimal.isRun (l.text.takeWhile (· != '.') ++ (l.text.dropWhile (· != '.')).drop 1) = true := by
  have h := l.denotes
  unfold Double.ofLiteral? at h
  simp only [Option.ite_none_right_eq_some, Bool.and_eq_true] at h
  exact h.1.1

theorem Literal.ne_nil (l : Literal) : l.text ≠ [] := by
  intro hnil
  have h := l.isRun_parts
  rw [hnil] at h
  exact absurd h (by decide)

theorem Literal.isLiteralChar_of_mem (l : Literal) {c : Char} (hc : c ∈ l.text) : isLiteralChar c = true := by
  have h := l.isRun_parts
  rw [Decimal.isRun, Bool.and_eq_true, List.all_eq_true] at h
  rw [← List.takeWhile_append_dropWhile (p := (· != '.')) (l := l.text), List.mem_append] at hc
  rcases hc with hc | hc
  · have hdigit := h.2 c (List.mem_append_left _ hc)
    simp [isLiteralChar, hdigit]
  · cases hdrop : l.text.dropWhile (· != '.') with
    | nil => simp [hdrop] at hc
    | cons point fraction =>
      rw [hdrop, List.mem_cons] at hc
      rcases hc with rfl | hc
      · have hpoint := List.head?_dropWhile_not (fun c => c != '.') l.text
        rw [hdrop] at hpoint
        simp [isLiteralChar, show c = '.' by simpa using hpoint]
      · have hdigit := h.2 c (List.mem_append_right _ (by simpa [hdrop] using hc))
        simp [isLiteralChar, hdigit]

theorem mark_eq_none_of_isLiteralChar {c : Char} (h : isLiteralChar c = true) : Mark.ofChar? c = none := by
  rw [Mark.ofChar?.eq_def]
  split
  all_goals first
    | rfl
    | exact absurd h (by decide)

theorem isBlank_eq_false_of_isLiteralChar {c : Char} (h : isLiteralChar c = true) : isBlank c = false := by
  rw [isLiteralChar, Bool.or_eq_true, Char.isDigit_iff_toNat, beq_iff_eq] at h
  rcases h with h | rfl
  · have hzero : '0'.toNat = 48 := rfl
    have hnine : '9'.toNat = 57 := rfl
    simp only [isBlank, Bool.or_eq_false_iff, Bool.and_eq_false_iff, decide_eq_false_iff_not, beq_eq_false_iff_ne]
    omega
  · decide

/-! ## Reading the text of a derivation -/

/-- A literal that has just been read cannot go on: the text is at its end, or a mark comes next. -/
def Ended (rest : Text) : Prop := ∀ c ∈ rest.head?, (Mark.ofChar? c).isSome = true

theorem lexemes_of_literal {literal rest : Text} (hne : literal ≠ [])
    (hmarks : ∀ c ∈ literal, Mark.ofChar? c = none) (hrest : Ended rest) :
    Lexeme.ofText (literal ++ rest) = .literal literal :: Lexeme.ofText rest := by
  induction literal with
  | nil => exact absurd rfl hne
  | cons c literal ih =>
    have hc := hmarks c List.mem_cons_self
    rw [List.cons_append, Lexeme.ofText, hc]
    simp only
    by_cases hnil : literal = []
    · subst hnil
      rw [List.nil_append]
      cases rest with
      | nil => rfl
      | cons d rest =>
        have hd := hrest d (by simp)
        obtain ⟨m, hm⟩ := Option.isSome_iff_exists.1 hd
        rw [Lexeme.ofText, hm]
        rfl
    · rw [ih hnil fun d hd => hmarks d (List.mem_cons_of_mem c hd)]
      rfl

theorem assemble_signs (odd : Bool) (signs : List Sign) (rest : Text) :
    assemble (.operand odd) (Lexeme.ofText (signs.map Sign.char ++ rest)) =
      assemble (.operand (odd ^^ Sign.odd signs)) (Lexeme.ofText rest) := by
  induction signs generalizing odd with
  | nil => simp [Sign.odd]
  | cons s signs ih =>
    cases s with
    | plus => exact ih odd
    | minus =>
      rw [Sign.odd, Bool.xor_not, ← Bool.not_xor]
      exact ih (!odd)

/-- Where an operand may begin, the tokens of an expression are read off its text, in front of what follows.  A
sign may still be pending in front of an atom. -/
theorem assemble_text {l : Level} (e : Infix l) {odd : Bool} (hodd : l = .atom ∨ odd = false) {rest : Text}
    (hrest : Ended rest) :
    assemble (.operand odd) (Lexeme.ofText (e.text ++ rest)) =
      ((Place.operand odd).sign ++ e.tokens ++ ·) <$> assemble .operation (Lexeme.ofText rest) := by
  induction e generalizing odd rest with
  | literal l =>
    have hmarks : ∀ c ∈ l.text, Mark.ofChar? c = none := fun c hc =>
      mark_eq_none_of_isLiteralChar (l.isLiteralChar_of_mem hc)
    rw [Infix.text, lexemes_of_literal l.ne_nil hmarks hrest, assemble, literalValue, l.denotes]
    simp [Infix.tokens]
    rfl
  | group e ih =>
    have hclosing : Ended (')' :: rest) := by simp [Ended, Mark.ofChar?]
    have htext : (Infix.group e).text ++ rest = '(' :: (e.text ++ ')' :: rest) := by simp [Infix.text]
    rw [htext, Lexeme.ofText]
    show ((Place.operand odd).sign ++ .opening :: ·) <$>
      assemble (.operand false) (Lexeme.ofText (e.text ++ ')' :: rest)) = _
    rw [ih (.inr rfl) hclosing, Lexeme.ofText]
    show _ <$> _ <$> ([] ++ Token.closing :: ·) <$> assemble .operation (Lexeme.ofText rest) = _
    simp [Infix.tokens, Place.sign, Functor.map_map]
  | signed signs a ih =>
    obtain rfl : odd = false := by simpa using hodd
    rw [Infix.text, List.append_assoc, assemble_signs, Bool.false_xor, ih (.inl rfl) hrest]
    simp [Infix.tokens, Place.sign]
  | factor f ih =>
    obtain rfl : odd = false := by simpa using hodd
    exact ih (.inr rfl) hrest
  | scale t s f iht ihf =>
    obtain rfl : odd = false := by simpa using hodd
    have hmark : Ended (s.char :: (f.text ++ rest)) := by cases s <;> simp [Ended, Scaling.char, Mark.ofChar?]
    have hop : assemble .operation (Lexeme.ofText (s.char :: (f.text ++ rest))) =
        (.operator (.binary s.op) :: ·) <$> assemble (.operand false) (Lexeme.ofText (f.text ++ rest)) := by
      cases s <;> rfl
    rw [Infix.text, List.append_assoc, List.cons_append, iht (.inr rfl) hmark, hop, ihf (.inr rfl) hrest]
    simp [Infix.tokens, Place.sign, Functor.map_map]
  | product t ih =>
    obtain rfl : odd = false := by simpa using hodd
    exact ih (.inr rfl) hrest
  | add e s t ihe iht =>
    obtain rfl : odd = false := by simpa using hodd
    have hmark : Ended (s.char :: (t.text ++ rest)) := by cases s <;> simp [Ended, Sign.char, Mark.ofChar?]
    have hop : assemble .operation (Lexeme.ofText (s.char :: (t.text ++ rest))) =
        (.operator (.binary s.op) :: ·) <$> assemble (.operand false) (Lexeme.ofText (t.text ++ rest)) := by
      cases s <;> rfl
    rw [Infix.text, List.append_assoc, List.cons_append, ihe (.inr rfl) hmark, hop, iht (.inr rfl) hrest]
    simp [Infix.tokens, Place.sign, Functor.map_map]

/-- Blanks may stand anywhere in the text of an expression. -/
theorem tokens_of_withoutBlanks (e : Infix .sum) {text : Text} (h : text.withoutBlanks = e.text) :
    Expression.tokens text = .ok e.tokens := by
  have hend : Ended [] := by simp [Ended]
  have hread := @assemble_text _ e false (.inr rfl) [] hend
  rw [List.append_nil] at hread
  rw [Expression.tokens, h, hread]
  show Except.ok ([] ++ e.tokens ++ []) = _
  simp

/-- The text of a derivation has no blanks of its own. -/
theorem withoutBlanks_text {l : Level} (e : Infix l) : e.text.withoutBlanks = e.text := by
  induction e with
  | literal l =>
    refine List.filter_eq_self.2 fun c hc => ?_
    rw [isBlank_eq_false_of_isLiteralChar (l.isLiteralChar_of_mem hc)]
    rfl
  | group e ih =>
    rw [Infix.text, ← List.singleton_append, Text.withoutBlanks_append, Text.withoutBlanks_append, ih]
    rfl
  | signed signs a ih =>
    have hsigns : Text.withoutBlanks (signs.map Sign.char) = signs.map Sign.char := by
      refine List.filter_eq_self.2 fun c hc => ?_
      obtain ⟨s, -, rfl⟩ := List.mem_map.1 hc
      cases s <;> rfl
    rw [Infix.text, Text.withoutBlanks_append, ih, hsigns]
  | factor f ih => exact ih
  | scale t s f iht ihf =>
    rw [Infix.text, ← List.singleton_append, Text.withoutBlanks_append, Text.withoutBlanks_append, iht, ihf]
    cases s <;> rfl
  | product t ih => exact ih
  | add e s t ihe iht =>
    rw [Infix.text, ← List.singleton_append, Text.withoutBlanks_append, Text.withoutBlanks_append, ihe, iht]
    cases s <;> rfl

end Expression
end DocState
