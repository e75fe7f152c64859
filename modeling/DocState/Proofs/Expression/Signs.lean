import DocState.Proofs.Expression.Substitution

/-!
# Runs of signs

Where an operand may begin, a run of signs is worth one unary minus or nothing, by how many minus signs it has.  The run
may go on from signs that already stand in front of it, also from the sign of an addition or subtraction, and what
follows may be anything: all that is read around the run stays as it is.

* `AwaitsOperand front`: an operand may begin behind the text.  `tokens_awaiting`: what is read of it.
* `IsSigns run`: signs and blanks.  `IsSigns.exists_signs`: the signs of a run, by its number of minus signs.
* `TakesSign lexemes`: a pending minus sign is worth one token more or less in front of the lexemes.  `takesSign`: this
  holds of any lexemes.
* `tokens_around`: a run of signs adds at most one token, always at the same place.
* `tokens_signs_iff`: two runs of signs in the same place.
-/

namespace DocState
namespace Expression

/-- An operand may begin behind the text: it is blank, or the last character that is no blank is an operation, a sign or
an opening parenthesis. -/
def AwaitsOperand (front : Text) : Prop :=
  ∀ c ∈ front.withoutBlanks.getLast?, c = '+' ∨ c = '-' ∨ c = '*' ∨ c = '/' ∨ c = '('

instance (front : Text) : Decidable (AwaitsOperand front) := Option.decidableForallMem _

/-- Plus and minus signs, with blanks anywhere. -/
def IsSigns (run : Text) : Prop := ∀ c ∈ run, c = '+' ∨ c = '-' ∨ isBlank c = true

instance (run : Text) : Decidable (IsSigns run) := List.decidableBAll _ run

/-- Whether a run of signs is worth a unary minus. -/
def isNegative (run : Text) : Bool := run.count '-' % 2 == 1

/-! ## Before the run -/

/-- Behind a mark that is no closing parenthesis an operand may begin, whatever has been read before. -/
theorem Step.exists_operand {place place' : Place} {m : Mark} {out : List Token} (h : Step place (.mark m) out place')
    (hm : m ≠ .closing) : ∃ odd, place' = .operand odd := by
  cases h with
  | sign s odd => exact ⟨_, rfl⟩
  | sum s => exact ⟨_, rfl⟩
  | scale s => exact ⟨_, rfl⟩
  | opening => exact ⟨_, rfl⟩
  | closing => exact absurd rfl hm

theorem assemble_append_mark (place : Place) (front : List Lexeme) {m : Mark} (hm : m ≠ .closing) :
    (∃ e, ∀ rest, assemble place (front ++ .mark m :: rest) = .error e) ∨
      ∃ out odd, ∀ rest, assemble place (front ++ .mark m :: rest) = (out ++ ·) <$> assemble (.operand odd) rest := by
  obtain ⟨e, herror⟩ | ⟨out, place', hread⟩ := assemble_append place front
  · exact .inl ⟨e, fun rest => herror _⟩
  · obtain ⟨text, hliteral, -⟩ | ⟨later, place'', hstep, -⟩ := assemble_cons place' (.mark m) []
    · cases hliteral
    · obtain ⟨odd, rfl⟩ := hstep.exists_operand hm
      refine .inr ⟨out ++ later, odd, fun rest => ?_⟩
      rw [hread, hstep.assemble_cons, Functor.map_map]
      simp [List.append_assoc]

/-- What is read of a text behind which an operand may begin. -/
theorem tokens_awaiting {front : Text} (h : AwaitsOperand front) :
    (∃ e, ∀ rest, tokens (front ++ rest) = .error e) ∨
      ∃ out odd, ∀ rest : Text,
        tokens (front ++ rest) = (out ++ ·) <$> assemble (.operand odd) (Lexeme.ofText rest.withoutBlanks) := by
  rcases List.eq_nil_or_concat front.withoutBlanks with hnil | ⟨before, c, hlast⟩
  · refine .inr ⟨[], false, fun rest => ?_⟩
    rw [tokens, Text.withoutBlanks_append, hnil]
    exact (id_map _).symm
  · rw [List.concat_eq_append] at hlast
    have hmark : ∃ m, Mark.ofChar? c = some m ∧ m ≠ .closing := by
      rcases h c (by simp [hlast]) with rfl | rfl | rfl | rfl | rfl <;> exact ⟨_, rfl, by decide⟩
    obtain ⟨m, hm, hclosing⟩ := hmark
    have hlexemes : ∀ rest : Text, tokens (front ++ rest) =
        assemble (.operand false) (Lexeme.ofText before ++ .mark m :: Lexeme.ofText rest.withoutBlanks) := by
      intro rest
      rw [tokens, Text.withoutBlanks_append, hlast, List.append_assoc, List.singleton_append,
        Lexeme.ofText_append_mark hm]
    obtain ⟨e, herror⟩ | ⟨out, odd, hread⟩ := assemble_append_mark (.operand false) (Lexeme.ofText before) hclosing
    · exact .inl ⟨e, fun rest => (hlexemes rest).trans (herror _)⟩
    · exact .inr ⟨out, odd, fun rest => (hlexemes rest).trans (hread _)⟩

/-! ## The run -/

/-- The signs of a run, without its blanks. -/
theorem IsSigns.exists_signs {run : Text} (h : IsSigns run) :
    ∃ signs : List Sign, run.withoutBlanks = signs.map Sign.char ∧ Sign.odd signs = isNegative run := by
  induction run with
  | nil => exact ⟨[], rfl, rfl⟩
  | cons c run ih =>
    obtain ⟨signs, hsigns, hodd⟩ := ih fun d hd => h d (List.mem_cons_of_mem c hd)
    rcases h c List.mem_cons_self with rfl | rfl | hblank
    · refine ⟨.plus :: signs, congrArg ('+' :: ·) hsigns, ?_⟩
      rw [Sign.odd, hodd, isNegative, isNegative, List.count_cons_of_ne (by decide)]
    · refine ⟨.minus :: signs, congrArg ('-' :: ·) hsigns, ?_⟩
      rw [Sign.odd, hodd, isNegative, isNegative, List.count_cons_self, Bool.eq_iff_iff]
      simp only [Bool.not_eq_true', beq_eq_false_iff_ne, beq_iff_eq]
      omega
    · have hminus : c ≠ '-' := by
        rintro rfl
        exact absurd hblank (by decide)
      refine ⟨signs, ?_, ?_⟩
      · rw [← hsigns]
        exact List.filter_cons_of_neg (by simp [hblank])
      · rw [hodd, isNegative, isNegative, List.count_cons_of_ne hminus]

theorem IsSigns.assemble_append {run : Text} (h : IsSigns run) (odd : Bool) (behind : Text) :
    assemble (.operand odd) (Lexeme.ofText (run ++ behind).withoutBlanks) =
      assemble (.operand (odd ^^ isNegative run)) (Lexeme.ofText behind.withoutBlanks) := by
  obtain ⟨signs, hsigns, hodd⟩ := h.exists_signs
  rw [Text.withoutBlanks_append, hsigns, assemble_signs, hodd]

/-! ## Behind the run -/

/-- Where an operand may begin in front of the lexemes, a pending minus sign is worth one unary minus more or less in
front of their tokens.  Whether a literal denotes a number does not depend on it. -/
def TakesSign (lexemes : List Lexeme) : Prop :=
  (∃ e, ∀ odd, assemble (.operand odd) lexemes = .error e) ∨
    ∃ odd' out, ∀ odd, assemble (.operand odd) lexemes = .ok ((Place.operand (odd ^^ odd')).sign ++ out)

/-- A lexeme that is no sign comes behind the pending sign, and what follows does not notice that. -/
theorem takesSign_of_step {m : Lexeme} {t : Token} {place : Place}
    (h : ∀ odd, Step (.operand odd) m ((Place.operand odd).sign ++ [t]) place) (rest : List Lexeme) :
    TakesSign (m :: rest) := by
  cases hrest : assemble place rest with
  | error e => exact .inl ⟨e, fun odd => by rw [(h odd).assemble_cons, hrest]; rfl⟩
  | ok out =>
    refine .inr ⟨false, t :: out, fun odd => ?_⟩
    rw [(h odd).assemble_cons, hrest, Bool.xor_false]
    exact congrArg Except.ok (List.append_assoc _ _ _)

theorem takesSign (lexemes : List Lexeme) : TakesSign lexemes := by
  induction lexemes with
  | nil => exact .inr ⟨false, [], fun odd => by simp [assemble]⟩
  | cons m rest ih =>
    cases m with
    | literal text =>
      cases hvalue : Double.ofLiteral? text with
      | none => exact .inl ⟨.invalidNumber text, fun odd => by simp [assemble, literalValue, hvalue, bind, Except.bind]⟩
      | some x => exact takesSign_of_step (fun odd => .literal ⟨text, x, hvalue⟩ (.operand odd)) rest
    | mark m =>
      cases m with
      | plus => exact ih
      | minus =>
        obtain ⟨e, herror⟩ | ⟨odd', out, hread⟩ := ih
        · exact .inl ⟨e, fun odd => herror (!odd)⟩
        · refine .inr ⟨!odd', out, fun odd => (hread (!odd)).trans ?_⟩
          rw [Bool.not_xor, Bool.xor_not]
      | times => exact takesSign_of_step (fun odd => .scale .times (.operand odd)) rest
      | «over» => exact takesSign_of_step (fun odd => .scale .over (.operand odd)) rest
      | opening => exact takesSign_of_step (fun odd => .opening (.operand odd)) rest
      | closing => exact takesSign_of_step (fun odd => .closing (.operand odd)) rest

/-! ## Around the run -/

theorem Place.sign_operand_inj {odd odd' : Bool} :
    (Place.operand odd).sign = (Place.operand odd').sign ↔ odd = odd' := by
  cases odd <;> cases odd' <;> simp [Place.sign]

/-- Around a run of signs a literal denotes no number, or the tokens are the same for all runs, up to one unary minus
that is there or not. -/
theorem tokens_around {front : Text} (hfront : AwaitsOperand front) (behind : Text) :
    (∃ e, ∀ run, IsSigns run → tokens (front ++ run ++ behind) = .error e) ∨
      ∃ before odd after, ∀ run, IsSigns run →
        tokens (front ++ run ++ behind) = .ok (before ++ (Place.operand (odd ^^ isNegative run)).sign ++ after) := by
  obtain ⟨e, herror⟩ | ⟨before, odd, hread⟩ := tokens_awaiting hfront
  · exact .inl ⟨e, fun run _ => by rw [List.append_assoc, herror]⟩
  · have hrun : ∀ run, IsSigns run → tokens (front ++ run ++ behind) =
        (before ++ ·) <$> assemble (.operand (odd ^^ isNegative run)) (Lexeme.ofText behind.withoutBlanks) := by
      intro run h
      rw [List.append_assoc, hread, h.assemble_append]
    obtain ⟨e, herror⟩ | ⟨odd', after, hafter⟩ := takesSign (Lexeme.ofText behind.withoutBlanks)
    · exact .inl ⟨e, fun run h => by rw [hrun run h, herror]; rfl⟩
    · refine .inr ⟨before, odd ^^ odd', after, fun run h => ?_⟩
      rw [hrun run h, hafter, Bool.xor_assoc, Bool.xor_comm (isNegative run), ← Bool.xor_assoc]
      exact congrArg Except.ok (List.append_assoc _ _ _).symm

/-- Where an operand may begin, two runs of signs are read alike, in the same text, exactly if their numbers of minus
signs are both even or both odd, or if a literal of the text around them denotes no number.  What follows may be
anything, also another sign. -/
theorem tokens_signs_iff {front run run' : Text} (hfront : AwaitsOperand front) (hrun : IsSigns run)
    (hrun' : IsSigns run') (behind : Text) :
    tokens (front ++ run ++ behind) = tokens (front ++ run' ++ behind) ↔
      run.count '-' % 2 = run'.count '-' % 2 ∨ ∃ e, tokens (front ++ run ++ behind) = .error e := by
  have hparity : run.count '-' % 2 = run'.count '-' % 2 ↔ isNegative run = isNegative run' := by
    rw [isNegative, isNegative, Bool.eq_iff_iff, beq_iff_eq, beq_iff_eq]
    omega
  rw [hparity]
  obtain ⟨e, herror⟩ | ⟨before, odd, after, hread⟩ := tokens_around hfront behind
  · have hsame : tokens (front ++ run ++ behind) = tokens (front ++ run' ++ behind) :=
      (herror run hrun).trans (herror run' hrun').symm
    exact iff_of_true hsame (.inr ⟨e, herror run hrun⟩)
  · have hok : ¬ ∃ e, tokens (front ++ run ++ behind) = .error e := by
      rintro ⟨e, h⟩
      exact nomatch (hread run hrun).symm.trans h
    rw [hread run hrun, hread run' hrun', or_iff_left (by rwa [hread run hrun] at hok), Except.ok.injEq,
      List.append_left_inj, List.append_right_inj, Place.sign_operand_inj, Bool.xor_right_inj]

/-- The run goes on from the sign of a subtraction, and the text around it is no expression. -/
theorem tokens_signs_iff_subtraction :
    let front := "2)*(1 -".toList
    let behind := "/ 3(".toList
    AwaitsOperand front ∧ IsSigns " + ".toList ∧ IsSigns "- +-".toList ∧ IsSigns "+-".toList ∧
      tokens (front ++ " + ".toList ++ behind) = tokens (front ++ "- +-".toList ++ behind) ∧
      tokens (front ++ " + ".toList ++ behind) ≠ tokens (front ++ "+-".toList ++ behind) := by
  intro front behind
  have hfront : AwaitsOperand front := by decide
  have hplus : IsSigns " + ".toList := by decide
  have heven : IsSigns "- +-".toList := by decide
  have hodd : IsSigns "+-".toList := by decide
  refine ⟨hfront, hplus, heven, hodd, (tokens_signs_iff hfront hplus heven behind).2 (.inl (by decide)), fun h => ?_⟩
  rcases (tokens_signs_iff hfront hplus hodd behind).1 h with hparity | ⟨e, herror⟩
  · exact absurd hparity (by decide)
  · exact nomatch herror

end Expression
end DocState
