import DocState.Proofs.Expression.Recognition

/-!
# An expression in parentheses counts as its value

Whatever is accepted as an expression, well-formed or not, may be put in parentheses anywhere in a text: the reader
begins inside as at the start of a text, and what is read leaves one number on the stack and disturbs nothing below.

* `grouped text`: the text in parentheses.
* `assemble_append`, `settled`: what has been read does not depend on what follows.
* `arrange_closing`, `runItems_frame`: what is pending around a group, and the numbers below its own, stay as they are.
* `Operand lexemes ts items x`, `CountsAs lexemes x`: wherever the lexemes stand, they put the number `x` on the stack
  and do nothing else.  `countsAs_group`, `countsAs_literal`: an accepted text in parentheses, and a literal.
* `Operand.result?_around`: the tokens of an operand may be replaced by its number.  `exists_value_around`: the value of
  a text is a function of what an operand in it counts as.
* `value_grouped`: groups by themselves, behind a minus sign, on both sides of an operation, and anywhere.
-/

namespace DocState
namespace Expression

/-- The text in parentheses. -/
def grouped (text : Text) : Text := '(' :: text ++ [')']

/-- The mark that an operation with two operands is. -/
def BinaryOp.mark : BinaryOp → Mark
  | .add => .plus
  | .sub => .minus
  | .mul => .times
  | .div => .over

/-- No literal stands at the end of the text, so that a literal may follow. -/
def Marked (front : Text) : Prop := ∀ c ∈ front.getLast?, (Mark.ofChar? c).isSome = true

/-! ## Lexemes -/

namespace Lexeme

theorem extend_append (c : Char) (lexemes : List Lexeme) (m : Mark) (rest : List Lexeme) :
    extend c (lexemes ++ .mark m :: rest) = extend c lexemes ++ .mark m :: rest := by
  rcases lexemes with _ | ⟨_ | _, _⟩ <;> rfl

/-- A mark separates what stands in front of it from what stands behind it. -/
theorem ofText_append_mark {c : Char} {m : Mark} (h : Mark.ofChar? c = some m) (front rest : Text) :
    ofText (front ++ c :: rest) = ofText front ++ .mark m :: ofText rest := by
  induction front with
  | nil => simp [ofText, h]
  | cons d front ih =>
    rw [List.cons_append, ofText, ofText, ih]
    cases Mark.ofChar? d with
    | none => exact extend_append d _ m _
    | some m' => rfl

/-- The lexemes in parentheses. -/
def group (lexemes : List Lexeme) : List Lexeme := .mark .opening :: (lexemes ++ [.mark .closing])

theorem ofText_append_grouped (front a behind : Text) :
    ofText (front ++ grouped a ++ behind).withoutBlanks =
      ofText front.withoutBlanks ++ group (ofText a.withoutBlanks) ++ ofText behind.withoutBlanks := by
  have hparentheses : ∀ t : Text, (grouped t).withoutBlanks = '(' :: (t.withoutBlanks ++ [')']) := fun t =>
    congrArg ('(' :: ·) (Text.withoutBlanks_append t [')'])
  have htext : (front ++ grouped a ++ behind).withoutBlanks =
      front.withoutBlanks ++ '(' :: (a.withoutBlanks ++ ')' :: behind.withoutBlanks) := by
    simp [Text.withoutBlanks_append, hparentheses]
  have hopening : Mark.ofChar? '(' = some .opening := by rfl
  have hclosing : Mark.ofChar? ')' = some .closing := by rfl
  rw [htext, ofText_append_mark hopening, ofText_append_mark hclosing]
  simp [group]

theorem ofText_grouped (a : Text) : ofText (grouped a).withoutBlanks = group (ofText a.withoutBlanks) := by
  have hlexemes := ofText_append_grouped [] a []
  rw [List.nil_append, List.append_nil] at hlexemes
  exact hlexemes.trans (List.append_nil _)

/-- Characters that are no marks, between marks or at an end of the text, are a lexeme of their own. -/
theorem ofText_append_run {front run behind : Text} (hne : run ≠ []) (hmarks : ∀ c ∈ run, Mark.ofChar? c = none)
    (hfront : Marked front) (hbehind : Ended behind) :
    ofText (front ++ (run ++ behind)) = ofText front ++ .literal run :: ofText behind := by
  have hread := lexemes_of_literal hne hmarks hbehind
  rcases List.eq_nil_or_concat front with rfl | ⟨before, c, hlast⟩
  · exact hread
  · obtain ⟨m, hm⟩ := Option.isSome_iff_exists.1 (hfront c (by simp [hlast]))
    have hmark := ofText_append_mark hm before
    rw [hlast, List.concat_eq_append, List.append_assoc, List.singleton_append, hmark, hmark, hread]
    simp [ofText]

theorem ofText_append_literal {front behind : Text} (l : Literal) (hfront : Marked front.withoutBlanks)
    (hbehind : Ended behind.withoutBlanks) :
    ofText (front ++ l.text ++ behind).withoutBlanks =
      ofText front.withoutBlanks ++ [.literal l.text] ++ ofText behind.withoutBlanks := by
  have hblanks : l.text.withoutBlanks = l.text := by
    refine List.filter_eq_self.2 fun c hc => ?_
    rw [isBlank_eq_false_of_isLiteralChar (l.isLiteralChar_of_mem hc)]
    rfl
  have hread := ofText_append_run l.ne_nil
    (fun c hc => mark_eq_none_of_isLiteralChar (l.isLiteralChar_of_mem hc)) hfront hbehind
  rw [Text.withoutBlanks_append, Text.withoutBlanks_append, hblanks, List.append_assoc, hread, List.append_assoc,
    List.singleton_append]

theorem ofText_append_operator (op : BinaryOp) (a b : Text) :
    ofText (a ++ (Operator.binary op).text ++ b).withoutBlanks =
      ofText a.withoutBlanks ++ .mark op.mark :: ofText b.withoutBlanks := by
  have hop : (Operator.binary op).text.withoutBlanks = [op.mark.char] := by cases op <;> rfl
  have hmark : Mark.ofChar? op.mark.char = some op.mark := by cases op <;> rfl
  rw [Text.withoutBlanks_append, Text.withoutBlanks_append, hop, List.append_assoc, List.singleton_append,
    ofText_append_mark hmark]

end Lexeme

/-! ## Tokens -/

/-- What has been read does not depend on what follows, and neither does the error that it ended with. -/
theorem assemble_append (place : Place) (front : List Lexeme) :
    (∃ e, ∀ rest, assemble place (front ++ rest) = .error e) ∨
      ∃ out place', ∀ rest, assemble place (front ++ rest) = (out ++ ·) <$> assemble place' rest := by
  induction front generalizing place with
  | nil => exact .inr ⟨[], place, fun rest => (id_map (assemble place rest)).symm⟩
  | cons m front ih =>
    obtain ⟨text, rfl, hvalue, -⟩ | ⟨out, place', hstep, -⟩ := assemble_cons place m []
    · refine .inl ⟨.invalidNumber text, fun rest => ?_⟩
      cases place <;> simp [assemble, literalValue, hvalue, bind, Except.bind]
    · obtain ⟨e, herror⟩ | ⟨later, place'', hread⟩ := ih place'
      · exact .inl ⟨e, fun rest => by rw [List.cons_append, hstep.assemble_cons, herror]; rfl⟩
      · refine .inr ⟨out ++ later, place'', fun rest => ?_⟩
        rw [List.cons_append, hstep.assemble_cons, hread, Functor.map_map]
        simp [List.append_assoc]

/-- At a closing parenthesis the reader has written what it would have written at the end. -/
theorem assemble_closing {place : Place} {lexemes : List Lexeme} {ts : List Token} (h : assemble place lexemes = .ok ts)
    (rest : List Lexeme) : assemble place (lexemes ++ .mark .closing :: rest) =
      (ts ++ .closing :: ·) <$> assemble .operation rest := by
  induction lexemes generalizing place ts with
  | nil =>
    obtain rfl : place.sign = ts := by
      rcases place with (_ | _) | _ <;> exact Except.ok.inj h
    rcases place with (_ | _) | _ <;> rfl
  | cons m lexemes ih =>
    obtain ⟨out, place', later, hstep, hlater, rfl⟩ := exists_step h
    rw [List.cons_append, hstep.assemble_cons, ih hlater, Functor.map_map]
    simp [List.append_assoc]

/-- In parentheses the reader begins as at the start of a text. -/
theorem assemble_group {lexemes : List Lexeme} {ts : List Token} (h : assemble (.operand false) lexemes = .ok ts)
    (place : Place) (rest : List Lexeme) :
    assemble place (Lexeme.group lexemes ++ rest) =
      (place.sign ++ (.opening :: (ts ++ [.closing])) ++ ·) <$> assemble .operation rest := by
  have hinside := assemble_closing h rest
  rw [Lexeme.group, List.cons_append, (Step.opening place).assemble_cons, List.append_assoc, List.singleton_append,
    hinside, Functor.map_map]
  simp

/-! ## Order -/

namespace Pending

theorem takeBefore_append_opening (op : Operator) (stack below : List Pending) :
    takeBefore op (stack ++ .opening :: below) =
      ((takeBefore op stack).1, (takeBefore op stack).2 ++ .opening :: below) := by
  induction stack with
  | nil => rfl
  | cons top stack ih =>
    cases top with
    | opening => rfl
    | operator o =>
      by_cases h : o.precedes op = true <;> simp [takeBefore, h, ih]

theorem takeGroup?_of_takeAll? {stack : List Pending} {items : List Item} (h : takeAll? stack = some items)
    (below : List Pending) : takeGroup? (stack ++ .opening :: below) = some (items, below) := by
  induction stack generalizing items with
  | nil =>
    cases h
    rfl
  | cons top stack ih =>
    cases top with
    | opening => cases h
    | operator o =>
      obtain ⟨out, hout, rfl⟩ := Option.map_eq_some_iff.1 h
      simp [takeGroup?, ih hout]

theorem takeGroup?_frame {stack kept : List Pending} {out : List Item} (h : takeGroup? stack = some (out, kept))
    (below : List Pending) : takeGroup? (stack ++ below) = some (out, kept ++ below) := by
  induction stack generalizing out with
  | nil => cases h
  | cons top stack ih =>
    cases top with
    | opening =>
      cases h
      rfl
    | operator o =>
      obtain ⟨⟨out', kept'⟩, hout, heq⟩ := Option.map_eq_some_iff.1 h
      cases heq
      simp [takeGroup?, ih hout]

end Pending

/-- What is pending below an opening parenthesis stays there until the parenthesis is closed. -/
theorem arrange_closing {stack : List Pending} {ts : List Token} {items : List Item}
    (h : arrange stack ts = some items) (below : List Pending) (rest : List Token) :
    arrange (stack ++ .opening :: below) (ts ++ .closing :: rest) = (arrange below rest).map (items ++ ·) := by
  induction ts generalizing stack items with
  | nil =>
    show (Pending.takeGroup? (stack ++ .opening :: below)).bind _ = _
    rw [Pending.takeGroup?_of_takeAll? h]
    rfl
  | cons t ts ih =>
    cases t with
    | number x =>
      obtain ⟨later, hlater, rfl⟩ := Option.map_eq_some_iff.1 h
      rw [List.cons_append, arrange, ih hlater]
      simp [Function.comp_def]
    | operator op =>
      obtain ⟨later, hlater, rfl⟩ := Option.map_eq_some_iff.1 h
      have hrest := ih hlater
      rw [List.cons_append] at hrest
      rw [List.cons_append, arrange, Pending.takeBefore_append_opening]
      simp [hrest, Function.comp_def]
    | opening => exact @ih (.opening :: stack) items h
    | closing =>
      obtain ⟨⟨out, kept⟩, hgroup, hkept⟩ := Option.bind_eq_some_iff.1 h
      obtain ⟨later, hlater, rfl⟩ := Option.map_eq_some_iff.1 hkept
      rw [List.cons_append, arrange, Pending.takeGroup?_frame hgroup]
      simp [ih hlater, Function.comp_def]

/-- The items of a group stand together. -/
theorem arrange_group {ts : List Token} {items : List Item} (h : arrange [] ts = some items) (stack : List Pending)
    (rest : List Token) :
    arrange stack (.opening :: (ts ++ [.closing]) ++ rest) = (arrange stack rest).map (items ++ ·) := by
  rw [List.cons_append, List.append_assoc]
  exact arrange_closing h stack rest

/-- Whatever follows, the tokens in front are put in order in the same way, or parentheses do not match. -/
def Settled (stack : List Pending) (front : List Token) : Prop :=
  (∀ rest, arrange stack (front ++ rest) = none) ∨
    ∃ out stack', ∀ rest, arrange stack (front ++ rest) = (arrange stack' rest).map (out ++ ·)

theorem Settled.cons {stack stack' : List Pending} {out : List Item} {t : Token} {front : List Token}
    (h : Settled stack' front) (hfirst : ∀ rest, arrange stack (t :: rest) = (arrange stack' rest).map (out ++ ·)) :
    Settled stack (t :: front) := by
  rcases h with hnone | ⟨later, stack'', hread⟩
  · exact .inl fun rest => by rw [List.cons_append, hfirst, hnone]; rfl
  · refine .inr ⟨out ++ later, stack'', fun rest => ?_⟩
    rw [List.cons_append, hfirst, hread]
    simp [Function.comp_def]

/-- What has been put in order does not depend on what follows. -/
theorem settled (stack : List Pending) (front : List Token) : Settled stack front := by
  induction front generalizing stack with
  | nil => exact .inr ⟨[], stack, fun rest => by simp⟩
  | cons t front ih =>
    cases t with
    | number x =>
      have hnumber : ∀ rest, arrange stack (.number x :: rest) = (arrange stack rest).map ([.number x] ++ ·) :=
        fun _ => rfl
      exact (ih stack).cons hnumber
    | operator op => exact (ih _).cons fun _ => rfl
    | opening =>
      have hopening : ∀ rest, arrange stack (.opening :: rest) = (arrange (.opening :: stack) rest).map ([] ++ ·) :=
        fun rest => by simp [arrange]
      exact (ih _).cons hopening
    | closing =>
      cases hgroup : Pending.takeGroup? stack with
      | none => exact .inl fun rest => by simp [arrange, hgroup]
      | some group =>
        have hclosing : ∀ rest, arrange stack (.closing :: rest) = (arrange group.2 rest).map (group.1 ++ ·) :=
          fun rest => by simp [arrange, hgroup]
        exact (ih _).cons hclosing

/-! ## Values -/

theorem runItems_append (first later : List Item) (stack : List Float) :
    runItems (first ++ later) stack = (runItems first stack).bind (runItems later) := by
  induction first generalizing stack with
  | nil => rfl
  | cons item first ih =>
    cases item with
    | number x => exact ih (x :: stack)
    | operator op =>
      cases op with
      | negate =>
        cases stack with
        | nil => rfl
        | cons x stack => exact ih (-x :: stack)
      | binary op =>
        rcases stack with _ | ⟨b, _ | ⟨a, stack⟩⟩
        · rfl
        · rfl
        · exact ih (op.apply a b :: stack)

/-- A run does not notice what lies below the numbers that it needs. -/
theorem runItems_frame {items : List Item} {stack after : List Float} (h : runItems items stack = some after)
    (below : List Float) : runItems items (stack ++ below) = some (after ++ below) := by
  fun_induction runItems items stack with
  | case1 stack =>
    cases h
    rfl
  | case2 rest stack x ih => exact ih h
  | case3 rest x stack ih => exact ih h
  | case4 rest op b a stack ih => exact ih h
  | case5 => cases h

/-- What leaves one number leaves it on any stack. -/
theorem runItems_value {items : List Item} {x : Float} (h : runItems items [] = some [x]) (rest : List Item)
    (stack : List Float) : runItems (items ++ rest) stack = runItems rest (x :: stack) := by
  rw [runItems_append, ← List.nil_append stack, runItems_frame h]
  rfl

/-! ## Lexemes that count as a number -/

/-- Wherever the lexemes stand, behind a pending sign and among anything else, they have their own tokens, these have
their own items, and the items put one number on the stack. -/
structure Operand (lexemes : List Lexeme) (ts : List Token) (items : List Item) (x : Float) : Prop where
  assembled : ∀ place rest, assemble place (lexemes ++ rest) = (place.sign ++ ts ++ ·) <$> assemble .operation rest
  arranged : ∀ stack rest, arrange stack (ts ++ rest) = (arrange stack rest).map (items ++ ·)
  run : ∀ rest stack, runItems (items ++ rest) stack = runItems rest (x :: stack)

/-- The lexemes are an operand with this number. -/
def CountsAs (lexemes : List Lexeme) (x : Float) : Prop := ∃ ts items, Operand lexemes ts items x

theorem countsAs_group {a : Text} {x : Float} (h : value a = .ok x) :
    CountsAs (Lexeme.group (Lexeme.ofText a.withoutBlanks)) x := by
  obtain ⟨ts, items, htokens, harrange, hrun⟩ := value_eq_ok_iff.1 h
  exact ⟨_, items, assemble_group htokens, arrange_group harrange, runItems_value hrun⟩

theorem countsAs_literal (l : Literal) : CountsAs [.literal l.text] l.value :=
  ⟨[.number l.value], [.number l.value], fun place => (Step.literal l place).assemble_cons, fun _ _ => rfl,
    fun _ _ => rfl⟩

theorem Operand.assembled_last {lexemes : List Lexeme} {ts : List Token} {items : List Item} {x : Float}
    (h : Operand lexemes ts items x) (place : Place) : assemble place lexemes = .ok (place.sign ++ ts ++ []) := by
  have hread := h.assembled place []
  rwa [List.append_nil] at hread

/-- The number that is left, if it is the only one. -/
def single? : List Float → Option Float
  | [x] => some x
  | _ => none

/-- The value of tokens. -/
def result? (ts : List Token) : Option Float :=
  (arrange [] ts).bind fun items => (runItems items []).bind single?

theorem toOption_value (text : Text) : (value text).toOption = (tokens text).toOption.bind result? := by
  unfold value Postfix.ofText
  cases tokens text with
  | error e => rfl
  | ok ts =>
    show _ = result? ts
    unfold result?
    cases harrange : arrange [] ts with
    | none => simp [harrange, bind, Except.bind, Except.toOption]
    | some items =>
      simp only [harrange, bind, Except.bind, Postfix.value, Option.bind_some]
      rcases runItems items [] with _ | (_ | ⟨x, _ | ⟨y, numbers⟩⟩) <;> rfl

/-- The tokens of an operand may be replaced by its number. -/
theorem Operand.result?_around {lexemes : List Lexeme} {ts : List Token} {items : List Item} {x : Float}
    (h : Operand lexemes ts items x) (front behind : List Token) :
    result? (front ++ (ts ++ behind)) = result? (front ++ .number x :: behind) := by
  unfold result?
  obtain hnone | ⟨out, stack, hfront⟩ := settled [] front
  · rw [hnone, hnone]
  · rw [hfront, hfront, h.arranged, arrange]
    cases arrange stack behind with
    | none => rfl
    | some later =>
      have hrest : runItems (items ++ later) = runItems (.number x :: later) := funext (h.run later)
      show (runItems (out ++ (items ++ later)) []).bind single? = (runItems (out ++ .number x :: later) []).bind single?
      rw [runItems_append, runItems_append, hrest]

/-- The value of a text is a function of what an operand in it counts as. -/
theorem exists_value_around (front behind : List Lexeme) :
    ∃ f : Float → Option Float, ∀ {lexemes x} {text : Text}, CountsAs lexemes x →
      Lexeme.ofText text.withoutBlanks = front ++ lexemes ++ behind → (value text).toOption = f x := by
  obtain ⟨e, herror⟩ | ⟨out, place, hfront⟩ := assemble_append (.operand false) front
  · refine ⟨fun _ => none, fun _ htext => ?_⟩
    rw [toOption_value, tokens, htext, List.append_assoc, herror]
    rfl
  · refine ⟨fun x => (assemble .operation behind).toOption.bind fun later =>
      result? (out ++ place.sign ++ .number x :: later), fun hcounts htext => ?_⟩
    obtain ⟨ts, items, h⟩ := hcounts
    rw [toOption_value, tokens, htext, List.append_assoc, hfront, h.assembled]
    cases assemble .operation behind with
    | error e => rfl
    | ok later =>
      have hsame := h.result?_around (out ++ place.sign) later
      rw [List.append_assoc] at hsame
      show result? (out ++ (place.sign ++ ts ++ later)) = _
      rw [List.append_assoc, hsame]
      rfl

/-! ## Groups -/

theorem value_of_result? {text : Text} {ts : List Token} {x : Float} (htokens : tokens text = .ok ts)
    (h : result? ts = some x) : value text = .ok x := by
  have hvalue := toOption_value text
  rw [htokens] at hvalue
  replace hvalue := hvalue.trans h
  cases hx : value text with
  | error e =>
    rw [hx] at hvalue
    cases hvalue
  | ok y =>
    rw [hx] at hvalue
    cases hvalue
    rfl

namespace CountsAs

variable {a b : Text} {x y : Float} (ha : CountsAs (Lexeme.ofText a.withoutBlanks) x)
include ha

theorem value_eq : value a = .ok x := by
  obtain ⟨ts, items, h⟩ := ha
  exact value_of_result? (h.assembled_last (.operand false)) (h.result?_around [] [])

/-- The minus sign is held back until the operand begins. -/
theorem value_negated : value ('-' :: a) = .ok (-x) := by
  obtain ⟨ts, items, h⟩ := ha
  exact value_of_result? (h.assembled_last (.operand true)) (h.result?_around [.operator .negate] [])

/-- An operation reads its second operand as at the start of a text. -/
theorem value_binary (hb : CountsAs (Lexeme.ofText b.withoutBlanks) y) (op : BinaryOp) :
    value (a ++ (Operator.binary op).text ++ b) = .ok (op.apply x y) := by
  obtain ⟨ts, items, h⟩ := ha
  obtain ⟨ts', items', h'⟩ := hb
  have hoperation : ∀ rest, assemble .operation (.mark op.mark :: rest) =
      (.operator (.binary op) :: ·) <$> assemble (.operand false) rest := by cases op <;> exact fun _ => rfl
  have htokens : tokens (a ++ (Operator.binary op).text ++ b) = .ok (ts ++ .operator (.binary op) :: (ts' ++ [])) := by
    rw [tokens, Lexeme.ofText_append_operator, h.assembled, hoperation, h'.assembled_last]
    rfl
  have hfirst := h.result?_around [] (.operator (.binary op) :: (ts' ++ []))
  have hsecond := h'.result?_around [.number x, .operator (.binary op)] []
  exact value_of_result? htokens (hfirst.trans hsecond)

end CountsAs

/-- An accepted text keeps its value in parentheses, has the opposite one behind a minus sign, and is an operand of any
operation; in any text it may be replaced by another one of the same value, and by a literal of this value if no other
literal is beside it. -/
theorem value_grouped {a b : Text} {x y : Float} (ha : value a = .ok x) (hb : value b = .ok y) :
    value (grouped a) = .ok x ∧ value ('-' :: grouped a) = .ok (-x) ∧
      (∀ op : BinaryOp, value (grouped a ++ (Operator.binary op).text ++ grouped b) = .ok (op.apply x y)) ∧
      ∀ front behind : Text,
        (∀ a', value a' = .ok x →
          (value (front ++ grouped a' ++ behind)).toOption = (value (front ++ grouped a ++ behind)).toOption) ∧
        ∀ l : Literal, l.value = x → Marked front.withoutBlanks → Ended behind.withoutBlanks →
          (value (front ++ l.text ++ behind)).toOption = (value (front ++ grouped a ++ behind)).toOption := by
  have hgroup : ∀ {c : Text} {z : Float}, value c = .ok z → CountsAs (Lexeme.ofText (grouped c).withoutBlanks) z := by
    intro c z hc
    rw [Lexeme.ofText_grouped]
    exact countsAs_group hc
  refine ⟨(hgroup ha).value_eq, (hgroup ha).value_negated, (hgroup ha).value_binary (hgroup hb), fun front behind => ?_⟩
  obtain ⟨f, hf⟩ := exists_value_around (Lexeme.ofText front.withoutBlanks) (Lexeme.ofText behind.withoutBlanks)
  have haround := hf (countsAs_group ha) (Lexeme.ofText_append_grouped front a behind)
  refine ⟨fun a' ha' => ?_, fun l hl hfront hbehind => ?_⟩
  · exact (hf (countsAs_group ha') (Lexeme.ofText_append_grouped front a' behind)).trans haround.symm
  · exact (hf (hl ▸ countsAs_literal l) (Lexeme.ofText_append_literal l hfront hbehind)).trans haround.symm

/-- Five with its operation in a wrong place is divided by one, made negative, and replaced by a sum; a one in
parentheses is replaced by a one. -/
theorem value_grouped_five :
    let five := Double.ofDecimal 2 0 + Double.ofDecimal 3 0
    let one := Double.ofDecimal 1 0
    value "2(3)+".toList = .ok five ∧ value "1".toList = .ok one ∧
      value "-(2(3)+)".toList = .ok (-five) ∧ value "(2(3)+)/(1)".toList = .ok (five / one) ∧
      (value "4 * (2 + 3)-1".toList).toOption = (value "4 * (2(3)+)-1".toList).toOption ∧
      (value "7(2)+ 1".toList).toOption = (value "7(2)+ (1)".toList).toOption := by
  intro five one
  have hfive : value "2(3)+".toList = .ok five := by rfl
  have hsum : value "2 + 3".toList = .ok five := by rfl
  have hone : value "1".toList = .ok one := by rfl
  have hdenotes : Double.ofLiteral? "1".toList = some one := by rfl
  obtain ⟨-, hnegated, hbinary, hfives⟩ := value_grouped hfive hone
  obtain ⟨-, -, -, hones⟩ := value_grouped hone hone
  refine ⟨hfive, hone, hnegated, hbinary .div, (hfives "4 * ".toList "-1".toList).1 "2 + 3".toList hsum, ?_⟩
  have hfront : Marked (Text.withoutBlanks "7(2)+ ".toList) := by
    rintro c ⟨⟩
    rfl
  exact (hones "7(2)+ ".toList []).2 ⟨"1".toList, one, hdenotes⟩ rfl hfront nofun

end Expression
end DocState
