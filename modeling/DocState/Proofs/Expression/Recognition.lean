import Mathlib.Data.List.Chain
import DocState.Expression.Integer
import DocState.Proofs.Expression.Arrangement
import DocState.Proofs.Expression.Conservation

/-!
# Which texts have a value

The evaluator does not look at what stands beside what.  It matches parentheses, counts operands and operations, and
accepts whatever leaves one number.  An operation in a wrong place is then made up for by two operands in a row:
`2(3)+` is five.  Nothing else goes wrong: among the texts in which no operand begins directly behind another one,
those with a value are the well-formed expressions.

* `IsInfix text`: the text derives from the grammar, blanks apart.  `OperandsApart text`: no operand begins directly
  behind another one.
* `Step.excess_le`, `excess_le_of_assemble`: where operands are apart, no step and no reading gains on the operations.
* `Frame`, `Begun place`: a derivation up to a place.  `Begun.exists_next`: it goes on with each step that loses
  nothing; `Begun.exists_derivation`: it is completed by a reading that loses nothing.
* `isInfix_iff`: the well-formed texts.
-/

namespace DocState
namespace Expression

/-! ## Operands side by side -/

namespace Lexeme

/-- Whether an operand may end with a lexeme. -/
def endsOperand : Lexeme → Bool
  | .literal _ | .mark .closing => true
  | .mark _ => false

/-- Whether an operand may begin with a lexeme, signs apart. -/
def beginsOperand : Lexeme → Bool
  | .literal _ | .mark .opening => true
  | .mark _ => false

/-- No operand begins directly behind the end of another one. -/
def Apart (lexemes : List Lexeme) : Prop :=
  lexemes.IsChain fun a b => ¬ (a.endsOperand = true ∧ b.beginsOperand = true)

instance (lexemes : List Lexeme) : Decidable (Apart lexemes) := inferInstanceAs (Decidable (List.IsChain _ _))

theorem apart_cons_cons {a b : Lexeme} {rest : List Lexeme} :
    Apart (a :: b :: rest) ↔ ¬ (a.endsOperand = true ∧ b.beginsOperand = true) ∧ Apart (b :: rest) :=
  List.isChain_cons_cons

theorem apart_singleton (m : Lexeme) : Apart [m] := .singleton m

/-- What comes next depends on whether an operand has ended, not on how. -/
theorem apart_congr {a b : Lexeme} {rest : List Lexeme} (h : a.endsOperand = b.endsOperand) :
    Apart (a :: rest) ↔ Apart (b :: rest) := by
  cases rest with
  | nil => exact ⟨fun _ => apart_singleton b, fun _ => apart_singleton a⟩
  | cons c rest => rw [apart_cons_cons, apart_cons_cons, h]

end Lexeme

/-- No operand of the text begins directly behind another one, blanks apart: neither a literal nor a group behind a
group, nor a group behind a literal. -/
def OperandsApart (text : Text) : Prop := Lexeme.Apart (Lexeme.ofText text.withoutBlanks)

instance (text : Text) : Decidable (OperandsApart text) := inferInstanceAs (Decidable (Lexeme.Apart _))

/-- The text derives from the grammar of expressions, blanks apart. -/
def IsInfix (text : Text) : Prop := ∃ e : Infix .sum, e.text = text.withoutBlanks

/-! ## Operands and operations in balance -/

namespace Place

/-- A lexeme that leads to the place. -/
def last : Place → Lexeme
  | .operand _ => .mark .plus
  | .operation => .mark .closing

/-- The operands that have ended at a place and have no operation behind them yet. -/
def ended : Place → Nat
  | .operand _ => 0
  | .operation => 1

end Place

theorem numbers_append (s t : List Token) : numbers (s ++ t) = numbers s + numbers t := List.countP_append

theorem binaries_append (s t : List Token) : binaries (s ++ t) = binaries s + binaries t := List.countP_append

@[simp] theorem numbers_sign (place : Place) : numbers place.sign = 0 := by
  rcases place with (_ | _) | _ <;> rfl

@[simp] theorem binaries_sign (place : Place) : binaries place.sign = 0 := by
  rcases place with (_ | _) | _ <;> rfl

@[simp] theorem numbers_sign_append (place : Place) (t : Token) :
    numbers (place.sign ++ [t]) = if t.isNumber then 1 else 0 := by
  rw [numbers_append, numbers_sign, Nat.zero_add, numbers_cons]
  exact Nat.zero_add _

@[simp] theorem binaries_sign_append (place : Place) (t : Token) :
    binaries (place.sign ++ [t]) = if t.isBinary then 1 else 0 := by
  rw [binaries_append, binaries_sign, Nat.zero_add, binaries_cons]
  exact Nat.zero_add _

theorem closesGroups_sign_append (place : Place) (depth : Nat) (tokens : List Token) :
    ClosesGroups depth (place.sign ++ tokens) ↔ ClosesGroups depth tokens := by
  rcases place with (_ | _) | _
  · exact Iff.rfl
  · simp [Place.sign, ClosesGroups]
  · exact Iff.rfl

namespace Step

variable {place place' : Place} {m : Lexeme} {out : List Token}

theorem endsOperand_last (h : Step place m out place') : m.endsOperand = place'.last.endsOperand := by
  cases h with
  | sign s | sum s | scale s => cases s <;> rfl
  | opening | closing | literal => rfl

/-- A step gains at most as many operands as operations, if it does not put an operand behind another one. -/
theorem excess_le (h : Step place m out place') (hapart : Lexeme.Apart [place.last, m]) :
    numbers out + place.ended ≤ binaries out + place'.ended := by
  have hbeside := (Lexeme.apart_cons_cons.1 hapart).1
  cases h with
  | sign s odd => exact Nat.le_refl _
  | sum s => exact Nat.le_refl _
  | scale s => cases place <;> simp [Token.isNumber, Token.isBinary, Place.ended]
  | closing => cases place <;> simp [Token.isNumber, Token.isBinary, Place.ended]
  | opening =>
    cases place with
    | operand odd => simp [Token.isNumber, Token.isBinary, Place.ended]
    | operation => exact absurd ⟨rfl, rfl⟩ hbeside
  | literal l =>
    cases place with
    | operand odd => simp [Token.isNumber, Token.isBinary, Place.ended]
    | operation => exact absurd ⟨rfl, rfl⟩ hbeside

end Step

/-- A reading to the end gains at most one operand more than operations. -/
theorem excess_le_of_assemble {place : Place} {lexemes : List Lexeme} {tokens : List Token}
    (h : assemble place lexemes = .ok tokens) (hapart : Lexeme.Apart (place.last :: lexemes)) :
    numbers tokens + place.ended ≤ binaries tokens + 1 := by
  induction lexemes generalizing place tokens with
  | nil =>
    obtain rfl : place.sign = tokens := by
      rcases place with (_ | _) | _ <;> exact Except.ok.inj h
    rw [numbers_sign, binaries_sign]
    cases place <;> simp [Place.ended]
  | cons m rest ih =>
    obtain ⟨out, place', later, hstep, hlater, rfl⟩ := exists_step h
    obtain ⟨hbeside, hbehind⟩ := Lexeme.apart_cons_cons.1 hapart
    have hfirst := hstep.excess_le (Lexeme.apart_cons_cons.2 ⟨hbeside, Lexeme.apart_singleton m⟩)
    have hrest := ih hlater ((Lexeme.apart_congr hstep.endsOperand_last).1 hbehind)
    rw [numbers_append, binaries_append]
    omega

/-! ## Derivations up to a place -/

/-- A sum that waits for an atom: what has been added up, the product that comes next, and the signs of the atom. -/
structure Frame where
  sum : Option (Infix .sum × Sign)
  product : Option (Infix .product × Scaling)
  signs : List Sign

namespace Frame

/-- A sum of which nothing has been read. -/
def empty : Frame := ⟨none, none, []⟩

/-- The text of what has been added up. -/
def sumText (f : Frame) : Text :=
  match f.sum with
  | none => []
  | some (e, s) => e.text ++ [s.char]

/-- The text of what has been multiplied. -/
def productText (f : Frame) : Text :=
  match f.product with
  | none => []
  | some (t, s) => t.text ++ [s.char]

/-- The text in front of the atom. -/
def text (f : Frame) : Text := f.sumText ++ f.productText ++ f.signs.map Sign.char

/-- The product that ends with an atom. -/
def productWith (f : Frame) (a : Infix .atom) : Infix .product :=
  match f.product with
  | none => .factor (.signed f.signs a)
  | some (t, s) => .scale t s (.signed f.signs a)

/-- The sum that ends with an atom. -/
def sumWith (f : Frame) (a : Infix .atom) : Infix .sum :=
  match f.sum with
  | none => .product (f.productWith a)
  | some (e, s) => .add e s (f.productWith a)

theorem text_productWith (f : Frame) (a : Infix .atom) :
    f.sumText ++ (f.productWith a).text = f.text ++ a.text := by
  obtain ⟨sum, product, signs⟩ := f
  cases product <;> simp [text, productText, productWith, sumText, Infix.text]

theorem text_sumWith (f : Frame) (a : Infix .atom) : (f.sumWith a).text = f.text ++ a.text := by
  rw [← text_productWith]
  obtain ⟨sum, product, signs⟩ := f
  cases sum <;> simp [sumText, sumWith, Infix.text, productWith]

/-- The text of the groups that are open around a sum, the innermost first. -/
def outerText : List Frame → Text
  | [] => []
  | f :: outer => outerText outer ++ f.text ++ ['(']

end Frame

/-- A derivation as far as the reader has come: in front of an atom or behind one, with the groups that are open. -/
inductive Begun : Place → Type
  | awaiting {odd : Bool} (f : Frame) (outer : List Frame) : Begun (.operand odd)
  | complete (f : Frame) (a : Infix .atom) (outer : List Frame) : Begun .operation

namespace Begun

variable {place place' : Place}

/-- The number of open groups. -/
def depth : Begun place → Nat
  | awaiting _ outer | complete _ _ outer => outer.length

/-- The text that has been derived. -/
def text : Begun place → Text
  | awaiting f outer => Frame.outerText outer ++ f.text
  | complete f a outer => Frame.outerText outer ++ (f.sumWith a).text

end Begun

/-- The character of a mark. -/
def Mark.char : Mark → Char
  | .plus => '+'
  | .minus => '-'
  | .times => '*'
  | .over => '/'
  | .opening => '('
  | .closing => ')'

/-- The text of a lexeme. -/
def Lexeme.text : Lexeme → Text
  | .mark m => [m.char]
  | .literal text => text

theorem Sign.char_mark (s : Sign) : s.mark.char = s.char := by cases s <;> rfl

theorem Scaling.char_mark (s : Scaling) : s.mark.char = s.char := by cases s <;> rfl

/-- A step that loses no operand against the operations carries the derivation on. -/
theorem Begun.exists_next {place place' : Place} {m : Lexeme} {out later : List Token} (b : Begun place)
    (hstep : Step place m out place') (heven : numbers out + place.ended = binaries out + place'.ended)
    (hgroups : ClosesGroups b.depth (out ++ later)) :
    ∃ b' : Begun place', b'.text = b.text ++ m.text ∧ ClosesGroups b'.depth later := by
  cases hstep with
  | sign s odd =>
    cases b with
    | awaiting f outer =>
      refine ⟨.awaiting { f with signs := f.signs ++ [s] } outer, ?_, hgroups⟩
      simp [text, Frame.text, Frame.sumText, Frame.productText, Lexeme.text, Sign.char_mark]
  | sum s =>
    cases b with
    | complete f a outer =>
      refine ⟨.awaiting ⟨some (f.sumWith a, s), none, []⟩ outer, ?_, ?_⟩
      · simp [text, Frame.text, Frame.sumText, Frame.productText, Lexeme.text, Sign.char_mark]
      · simpa [ClosesGroups, depth] using hgroups
  | scale s place =>
    cases b with
    | awaiting f outer => simp [Token.isNumber, Token.isBinary, Place.ended] at heven
    | complete f a outer =>
      refine ⟨.awaiting ⟨f.sum, some (f.productWith a, s), []⟩ outer, ?_, ?_⟩
      · have hproduct := f.text_productWith a
        simp only [text, Frame.text_sumWith, ← hproduct]
        simp [Frame.text, Frame.sumText, Frame.productText, Lexeme.text, Scaling.char_mark]
      · simpa [ClosesGroups, depth, Place.sign] using hgroups
  | opening =>
    cases b with
    | awaiting f outer =>
      refine ⟨.awaiting .empty (f :: outer), ?_, ?_⟩
      · simp [text, Frame.outerText, Frame.text, Frame.empty, Frame.sumText, Frame.productText, Lexeme.text,
          Mark.char]
      · rw [List.append_assoc, closesGroups_sign_append] at hgroups
        exact hgroups
    | complete f a outer => simp [Token.isNumber, Token.isBinary, Place.ended] at heven
  | closing =>
    cases b with
    | awaiting f outer => simp [Token.isNumber, Token.isBinary, Place.ended] at heven
    | complete f a outer =>
      cases outer with
      | nil => exact absurd hgroups id
      | cons g outer =>
        refine ⟨.complete g (.group (f.sumWith a)) outer, ?_, hgroups⟩
        simp [text, Frame.outerText, Frame.text_sumWith, Infix.text, Lexeme.text, Mark.char]
  | literal l =>
    cases b with
    | awaiting f outer =>
      refine ⟨.complete f (.literal l) outer, ?_, ?_⟩
      · simp [text, Frame.text_sumWith, Infix.text, Lexeme.text]
      · rw [List.append_assoc, closesGroups_sign_append] at hgroups
        exact hgroups
    | complete f a outer => simp [Token.isNumber, Token.isBinary, Place.ended] at heven

/-- A reading to the end that gains one operand more than operations completes the derivation. -/
theorem Begun.exists_derivation {place : Place} (b : Begun place) {lexemes : List Lexeme} {tokens : List Token}
    (h : assemble place lexemes = .ok tokens) (hapart : Lexeme.Apart (place.last :: lexemes))
    (heven : numbers tokens + place.ended = binaries tokens + 1) (hgroups : ClosesGroups b.depth tokens) :
    ∃ e : Infix .sum, e.text = b.text ++ lexemes.flatMap Lexeme.text := by
  induction lexemes generalizing place tokens with
  | nil =>
    cases b with
    | awaiting f outer =>
      cases h
      simp [Place.ended] at heven
    | complete f a outer =>
      cases h
      obtain rfl : outer = [] := List.length_eq_zero_iff.1 hgroups
      exact ⟨f.sumWith a, by simp [text, Frame.outerText]⟩
  | cons m rest ih =>
    obtain ⟨out, place', later, hstep, hlater, rfl⟩ := exists_step h
    obtain ⟨hbeside, hbehind⟩ := Lexeme.apart_cons_cons.1 hapart
    have hfirst := hstep.excess_le (Lexeme.apart_cons_cons.2 ⟨hbeside, Lexeme.apart_singleton m⟩)
    have hafter := (Lexeme.apart_congr hstep.endsOperand_last).1 hbehind
    have hrest := excess_le_of_assemble hlater hafter
    rw [numbers_append, binaries_append] at heven
    -- neither the step nor the rest gains on the operations, so neither may lose
    obtain ⟨b', htext, hgroups'⟩ := b.exists_next hstep (by omega) hgroups
    obtain ⟨e, he⟩ := ih b' hlater hafter (by omega) hgroups'
    exact ⟨e, by rw [he, htext, List.append_assoc, List.flatMap_cons]⟩

/-! ## Texts of derivations -/

theorem Mark.char_of_ofChar? {c : Char} {m : Mark} (h : Mark.ofChar? c = some m) : m.char = c := by
  unfold Mark.ofChar? at h
  split at h <;> cases h <;> rfl

theorem Lexeme.flatMap_text_extend (c : Char) (lexemes : List Lexeme) :
    (extend c lexemes).flatMap text = c :: lexemes.flatMap text := by
  rcases lexemes with _ | ⟨_ | _, _⟩ <;> rfl

/-- The lexemes of a text make up the text. -/
theorem Lexeme.flatMap_text_ofText (t : Text) : (ofText t).flatMap text = t := by
  induction t with
  | nil => rfl
  | cons c t ih =>
    rw [ofText]
    cases hmark : Mark.ofChar? c with
    | none =>
      simp only
      rw [flatMap_text_extend, ih]
    | some m =>
      simp only
      rw [List.flatMap_cons, ih, text, Mark.char_of_ofChar? hmark]
      rfl

theorem Lexeme.apart_cons_of_not_ends {m : Lexeme} (hm : m.endsOperand = false) {lexemes : List Lexeme} :
    Apart (m :: lexemes) ↔ Apart lexemes := by
  cases lexemes with
  | nil => exact ⟨fun _ => .nil, fun _ => apart_singleton m⟩
  | cons next rest =>
    rw [apart_cons_cons, hm]
    simp

theorem Lexeme.apart_operation {m : Mark} (hm : (mark m).beginsOperand = false) {lexemes : List Lexeme}
    (h : Apart (.mark m :: lexemes)) : Apart (.mark .closing :: .mark m :: lexemes) :=
  apart_cons_cons.2 ⟨by simp [hm], h⟩

theorem Lexeme.ofText_sign (s : Sign) (t : Text) : ofText (s.char :: t) = .mark s.mark :: ofText t := by
  cases s <;> rfl

theorem Lexeme.ofText_scaling (s : Scaling) (t : Text) : ofText (s.char :: t) = .mark s.mark :: ofText t := by
  cases s <;> rfl

/-- In a derivation an operand begins behind an operation, a sign or an opening parenthesis, or in front of all. -/
theorem Infix.apart_text {l : Level} (e : Infix l) {m : Lexeme} (hm : m.endsOperand = false) {rest : Text}
    (hrest : Ended rest) (hapart : Lexeme.Apart (.mark .closing :: Lexeme.ofText rest)) :
    Lexeme.Apart (m :: Lexeme.ofText (e.text ++ rest)) := by
  induction e generalizing m rest with
  | literal l =>
    have hmarks : ∀ c ∈ l.text, Mark.ofChar? c = none := fun c hc =>
      mark_eq_none_of_isLiteralChar (l.isLiteralChar_of_mem hc)
    have hends : (Lexeme.mark .closing).endsOperand = (Lexeme.literal l.text).endsOperand := rfl
    rw [Infix.text, lexemes_of_literal l.ne_nil hmarks hrest]
    exact (Lexeme.apart_cons_of_not_ends hm).2 ((Lexeme.apart_congr hends).1 hapart)
  | group e ih =>
    have htext : (Infix.group e).text ++ rest = '(' :: (e.text ++ ')' :: rest) := by simp [Infix.text]
    have hclosing : Ended (')' :: rest) := by simp [Ended, Mark.ofChar?]
    have hbehind : Lexeme.Apart (.mark .closing :: Lexeme.ofText (')' :: rest)) :=
      Lexeme.apart_operation rfl hapart
    have hinside := ih (m := .mark .opening) rfl hclosing hbehind
    rw [htext]
    exact (Lexeme.apart_cons_of_not_ends hm).2 hinside
  | signed signs a ih =>
    rw [Infix.text, List.append_assoc]
    induction signs generalizing m with
    | nil => exact ih hm hrest hapart
    | cons s signs ihs =>
      rw [List.map_cons, List.cons_append, Lexeme.ofText_sign]
      exact (Lexeme.apart_cons_of_not_ends hm).2 (ihs (by cases s <;> rfl))
  | factor f ih => exact ih hm hrest hapart
  | scale t s f iht ihf =>
    have hmark : Ended (s.char :: (f.text ++ rest)) := by cases s <;> simp [Ended, Scaling.char, Mark.ofChar?]
    have hright := ihf (m := .mark s.mark) (by cases s <;> rfl) hrest hapart
    rw [Infix.text, List.append_assoc, List.cons_append]
    refine iht hm hmark ?_
    rw [Lexeme.ofText_scaling]
    exact Lexeme.apart_operation (by cases s <;> rfl) hright
  | product t ih => exact ih hm hrest hapart
  | add e s t ihe iht =>
    have hmark : Ended (s.char :: (t.text ++ rest)) := by cases s <;> simp [Ended, Sign.char, Mark.ofChar?]
    have hright := iht (m := .mark s.mark) (by cases s <;> rfl) hrest hapart
    rw [Infix.text, List.append_assoc, List.cons_append]
    refine ihe hm hmark ?_
    rw [Lexeme.ofText_sign]
    exact Lexeme.apart_operation (by cases s <;> rfl) hright

theorem operandsApart_of_isInfix {text : Text} (h : IsInfix text) : OperandsApart text := by
  obtain ⟨e, he⟩ := h
  have hend : Ended [] := by simp [Ended]
  have hapart := e.apart_text (m := .mark .plus) rfl hend (Lexeme.apart_singleton _)
  rw [List.append_nil, he] at hapart
  exact (Lexeme.apart_cons_of_not_ends rfl).1 hapart

/-! ## Texts with a value -/

theorem value_eq_ok_iff {text : Text} {x : Float} :
    value text = .ok x ↔ ∃ ts items, Expression.tokens text = .ok ts ∧ arrange [] ts = some items ∧
      runItems items [] = some [x] := by
  unfold value Postfix.ofText
  cases htokens : Expression.tokens text with
  | error e => simp [bind, Except.bind]
  | ok ts =>
    cases harrange : arrange [] ts with
    | none => simp [bind, Except.bind, harrange]
    | some items =>
      simp only [bind, Except.bind, harrange, Postfix.value, Except.ok.injEq]
      split <;> simp_all

/-- What may be at fault in a text without a value. -/
inductive Fault (text : Text) : Error → Prop
  | literal {literal : Text} (hmem : .literal literal ∈ Lexeme.ofText text.withoutBlanks)
    (hvalue : Double.ofLiteral? literal = none) : Fault text (.invalidNumber literal)
  | parentheses : Fault text (.mismatchedParentheses text)
  | expression : Fault text (.invalidExpression text)

theorem fault_of_value {text : Text} {e : Error} (h : value text = .error e) : Fault text e := by
  unfold value Postfix.ofText at h
  cases htokens : Expression.tokens text with
  | error e' =>
    rw [htokens] at h
    cases h
    obtain ⟨before, literal, after, hlexemes, hvalue, -, rfl⟩ := assemble_eq_error_iff.1 htokens
    exact .literal (by simp [hlexemes]) hvalue
  | ok ts =>
    cases harrange : arrange [] ts with
    | none =>
      simp only [htokens, harrange, bind, Except.bind] at h
      cases h
      exact .parentheses
    | some items =>
      simp only [htokens, harrange, bind, Except.bind, Postfix.value] at h
      split at h
      · cases h
      · cases h
        exact .expression

/-- A derivation has the value of its tree. -/
theorem value_of_withoutBlanks (e : Infix .sum) {text : Text} (he : e.text = text.withoutBlanks) :
    value text = .ok e.tree.value := by
  have hrun := runItems_postorder e.tree [] []
  rw [List.append_nil] at hrun
  exact value_eq_ok_iff.2 ⟨_, _, tokens_of_withoutBlanks e he.symm, arrange_tokens e, hrun⟩

theorem exists_value_of_isInfix {text : Text} (h : IsInfix text) : ∃ x, value text = .ok x := by
  obtain ⟨e, he⟩ := h
  exact ⟨e.tree.value, value_of_withoutBlanks e he⟩

/-- A text with a value in which operands are apart has a derivation. -/
theorem isInfix_of_value {text : Text} {x : Float} (h : value text = .ok x) (hapart : OperandsApart text) :
    IsInfix text := by
  obtain ⟨ts, items, htokens, harrange, hrun⟩ := value_eq_ok_iff.1 h
  have heven : numbers ts + Place.ended (.operand false) = binaries ts + 1 := numbers_eq_of_runItems harrange hrun
  have hgroups : ClosesGroups 0 ts := closesGroups_of_arrange harrange
  have hstart : Lexeme.Apart (Place.last (.operand false) :: Lexeme.ofText text.withoutBlanks) :=
    (Lexeme.apart_cons_of_not_ends rfl).2 hapart
  obtain ⟨e, he⟩ := (Begun.awaiting .empty []).exists_derivation htokens hstart heven hgroups
  rw [Lexeme.flatMap_text_ofText] at he
  exact ⟨e, he⟩

/-- The well-formed texts are those in which operands are apart and that have a value.  A text without a value has a
literal that denotes no number, parentheses that do not match, or operations that do not leave a single number. -/
theorem isInfix_iff (text : Text) :
    (IsInfix text ↔ OperandsApart text ∧ ∃ x, value text = .ok x) ∧
      ((∃ x, value text = .ok x) ∨ ∃ e, value text = .error e ∧ Fault text e) := by
  refine ⟨⟨fun h => ⟨operandsApart_of_isInfix h, exists_value_of_isInfix h⟩, ?_⟩, ?_⟩
  · rintro ⟨hapart, x, hx⟩
    exact isInfix_of_value hx hapart
  · cases hvalue : value text with
    | ok x => exact .inl ⟨x, rfl⟩
    | error e => exact .inr ⟨e, rfl, fault_of_value hvalue⟩

/-- Two operands in a row make up for an operation at the end. -/
theorem value_juxtaposed :
    let text := "2(3)+".toList
    value text = .ok (Double.ofDecimal 2 0 + Double.ofDecimal 3 0) ∧ ¬ IsInfix text := by
  intro text
  refine ⟨by rfl, fun h => ?_⟩
  have happly := operandsApart_of_isInfix h
  exact absurd happly (by decide)

end Expression
end DocState
