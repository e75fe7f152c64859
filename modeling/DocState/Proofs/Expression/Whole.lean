import DocState.Proofs.Decimals.Reading
import DocState.Proofs.Double.Arithmetic

/-!
# Where the arithmetic of doubles is that of integers

Doubles have 53 bits, so that every integer up to `2 ^ 53` is one, and an operation on integers is exact as long as its
result does not exceed that.  An expression over whole numbers without division is therefore computed exactly if it
does not do so anywhere.

* `Whole l`: the derivations from level `l` with digits for literals and without division.  `Whole.text`: the text that
  one derives.
* `Whole.exact`: the value in integer arithmetic.  `Whole.subexpressions`: the parts of an expression.
* `Whole.Within bound`: no part exceeds the bound.
* `Whole.exists_infix`: the same text, derived as an expression in doubles, has the same value.
* `integer_of_whole`: the number that is read, in every mode.
-/

namespace DocState
namespace Expression

/-! ## Expressions over whole numbers -/

/-- The derivations of expressions over whole numbers, without division. -/
inductive Whole : Level → Type
  | digits (t : Text) (hdigits : Decimal.isRun t = true) : Whole .atom
  | group (e : Whole .sum) : Whole .atom
  | signed (signs : List Sign) (a : Whole .atom) : Whole .factor
  | factor (f : Whole .factor) : Whole .product
  | times (t : Whole .product) (f : Whole .factor) : Whole .product
  | product (t : Whole .product) : Whole .sum
  | add (e : Whole .sum) (s : Sign) (t : Whole .product) : Whole .sum

namespace Whole

/-- The text that a derivation derives. -/
def text {l : Level} : Whole l → Text
  | digits t _ => t
  | group e => '(' :: e.text ++ [')']
  | signed signs a => signs.map Sign.char ++ a.text
  | factor f => f.text
  | times t f => t.text ++ '*' :: f.text
  | product t => t.text
  | add e s t => e.text ++ s.char :: t.text

/-- The value in integer arithmetic. -/
def exact {l : Level} : Whole l → Int
  | digits t _ => Decimal.value t
  | group e => e.exact
  | signed signs a => if Sign.odd signs then -a.exact else a.exact
  | factor f => f.exact
  | times t f => t.exact * f.exact
  | product t => t.exact
  | add e .plus t => e.exact + t.exact
  | add e .minus t => e.exact - t.exact

/-- The parts of an expression, the whole one first. -/
def subexpressions {l : Level} : Whole l → List ((l : Level) × Whole l)
  | digits t hdigits => [⟨_, digits t hdigits⟩]
  | group e => ⟨_, group e⟩ :: e.subexpressions
  | signed signs a => ⟨_, signed signs a⟩ :: a.subexpressions
  | factor f => ⟨_, factor f⟩ :: f.subexpressions
  | times t f => ⟨_, times t f⟩ :: (t.subexpressions ++ f.subexpressions)
  | product t => ⟨_, product t⟩ :: t.subexpressions
  | add e s t => ⟨_, add e s t⟩ :: (e.subexpressions ++ t.subexpressions)

variable {l : Level} {bound : Nat}

/-- No part of the expression has a value that exceeds the bound, above zero or below. -/
def Within (bound : Nat) (e : Whole l) : Prop := ∀ part ∈ e.subexpressions, part.2.exact.natAbs ≤ bound

instance (bound : Nat) (e : Whole l) : Decidable (e.Within bound) :=
  inferInstanceAs (Decidable (∀ part ∈ e.subexpressions, part.2.exact.natAbs ≤ bound))

theorem mem_subexpressions_self (e : Whole l) : ⟨l, e⟩ ∈ e.subexpressions := by
  cases e <;> exact List.mem_cons_self

theorem Within.natAbs_le {e : Whole l} (h : e.Within bound) : e.exact.natAbs ≤ bound := h _ e.mem_subexpressions_self

theorem Within.of_part {l' : Level} {e : Whole l} {part : Whole l'} (h : e.Within bound)
    (he : e.subexpressions = ⟨l, e⟩ :: part.subexpressions) : part.Within bound := fun s hs =>
  h s (he ▸ List.mem_cons_of_mem _ hs)

theorem Within.of_parts {l₁ l₂ : Level} {e : Whole l} {left : Whole l₁} {right : Whole l₂} (h : e.Within bound)
    (he : e.subexpressions = ⟨l, e⟩ :: (left.subexpressions ++ right.subexpressions)) :
    left.Within bound ∧ right.Within bound :=
  ⟨fun s hs => h s (he ▸ List.mem_cons_of_mem _ (List.mem_append_left _ hs)),
    fun s hs => h s (he ▸ List.mem_cons_of_mem _ (List.mem_append_right _ hs))⟩

/-! ## The same expression in doubles -/

/-- An expression that does not exceed `2 ^ 53` anywhere has the same value in double arithmetic. -/
theorem exists_infix (e : Whole l) (h : e.Within (2 ^ 53)) :
    ∃ e' : Infix l, e'.text = e.text ∧ Double.value? e'.tree.value = some (e.exact : Rat) := by
  induction e with
  | digits t hdigits =>
    have hle : (Decimal.value t : Int).natAbs ≤ 2 ^ 53 := h.natAbs_le
    have hlog : (Decimal.value t).log2 ≤ 1022 := Double.log2_le_of_lt (by omega)
    refine ⟨.literal ⟨t, _, ofLiteral?_of_isRun hdigits hlog⟩, rfl, ?_⟩
    show Double.value? (Double.ofDecimal (Decimal.value t) 0) = some ((Decimal.value t : Int) : Rat)
    rw [Double.value?_ofDecimal hlog, Double.rounded_of_natAbs_le hle]
  | group e ih =>
    obtain ⟨e', htext, hvalue⟩ := ih (h.of_part rfl)
    exact ⟨.group e', by rw [Infix.text, text, htext], hvalue⟩
  | signed signs a ih =>
    obtain ⟨a', htext, hvalue⟩ := ih (h.of_part rfl)
    refine ⟨.signed signs a', by rw [Infix.text, text, htext], ?_⟩
    rw [Infix.tree, exact]
    cases Sign.odd signs with
    | false => exact hvalue
    | true =>
      -- the opposite of zero is the other zero, which has the same value
      show Double.value? (-a'.tree.value) = some ((-a.exact : Int) : Rat)
      rw [Double.value?_neg, hvalue, Int.cast_neg, Option.map_some]
  | factor f ih =>
    obtain ⟨f', htext, hvalue⟩ := ih (h.of_part rfl)
    exact ⟨.factor f', htext, hvalue⟩
  | times t f iht ihf =>
    obtain ⟨hleft, hright⟩ := h.of_parts rfl
    obtain ⟨t', htext, hvalue⟩ := iht hleft
    obtain ⟨f', htext', hvalue'⟩ := ihf hright
    refine ⟨.scale t' .times f', ?_, Double.value?_mul_intCast hvalue hvalue' h.natAbs_le⟩
    rw [Infix.text, text, htext, htext']
    rfl
  | product t ih =>
    obtain ⟨t', htext, hvalue⟩ := ih (h.of_part rfl)
    exact ⟨.product t', htext, hvalue⟩
  | add e s t ihe iht =>
    obtain ⟨hleft, hright⟩ := h.of_parts rfl
    obtain ⟨e', htext, hvalue⟩ := ihe hleft
    obtain ⟨t', htext', hvalue'⟩ := iht hright
    refine ⟨.add e' s t', by rw [Infix.text, text, htext, htext'], ?_⟩
    cases s with
    | plus => exact Double.value?_add_intCast hvalue hvalue' h.natAbs_le
    | minus => exact Double.value?_sub_intCast hvalue hvalue' h.natAbs_le

end Whole

/-! ## The number that is read -/

/-- An expression over whole numbers that does not exceed `2 ^ 53` anywhere is read as its value in integer arithmetic,
in every mode and with blanks anywhere. -/
theorem integer_of_whole (e : Whole .sum) (h : e.Within (2 ^ 53)) {text : Text} (htext : text.withoutBlanks = e.text)
    (division : Division) : ∃ n : Number, integer division text = .ok n ∧ n.toInt = e.exact := by
  obtain ⟨e', hsame, hvalue⟩ := e.exists_infix h
  have hread : value text = .ok e'.tree.value := value_of_withoutBlanks e' (hsame.trans htext.symm)
  have hle := h.natAbs_le
  have hlow : Number.lowest ≤ e.exact := by
    unfold Number.lowest
    omega
  have hhigh : e.exact ≤ Number.highest := by
    unfold Number.highest
    omega
  obtain ⟨n, hn, hinteger⟩ := Number.exists_ofInt? hlow hhigh
  refine ⟨n, ?_, hn⟩
  rw [integer_eq_elim hread, hvalue, Option.bind_some, division.integer?_intCast, Option.bind_some, hinteger,
    Option.elim_some]

/-- The greatest power of two in reach, and a zero with a minus sign taken from it. -/
theorem integer_of_whole_two_pow :
    let number (t : Text) (h : Decimal.isRun t = true) : Whole .factor := .signed [] (.digits t h)
    let difference : Whole .sum := .add (.product (.factor (number ['2'] rfl))) .minus (.factor (number ['3'] rfl))
    let power : Whole .factor := .signed [.plus] (.digits "9007199254740992".toList rfl)
    let zero : Whole .product := .times (.factor (number ['0'] rfl)) (.signed [.minus] (.digits ['7'] rfl))
    let e : Whole .sum := .add (.product (.times (.factor (.signed [.minus] (.group difference))) power)) .minus zero
    let text : Text := "-(2 - 3) * +9007199254740992 - 0 * -7".toList
    e.Within (2 ^ 53) ∧ text.withoutBlanks = e.text ∧
      ∀ division, ∃ n : Number, integer division text = .ok n ∧ n.toInt = 2 ^ 53 := by
  intro number difference power zero e text
  have hwithin : e.Within (2 ^ 53) := by decide
  have htext : text.withoutBlanks = e.text := by decide
  have hexact : e.exact = 2 ^ 53 := by decide
  exact ⟨hwithin, htext, fun division => hexact ▸ integer_of_whole e hwithin htext division⟩

/-- A sum that exceeds it need not be exact. -/
example : integer .real "9007199254740992 + 1".toList = .ok 9007199254740992 := by decide +kernel

end Expression
end DocState
