import Mathlib.Data.List.TakeWhile
import DocState.Proofs.Expression.Substitution

/-!
# What is wrong with a text without a value

A text is read in three passes.  The first one stops at a literal that denotes no number, the second one at a
parenthesis without its partner, and the third one at an operation without its operands; if all is read, one number has
to be left.  Each pass reads the whole text before the next one begins, so the error of an earlier pass comes first,
wherever it stands.

* `IsLiteral l`: the digits and the point of a number in range.  `denotes_iff`: no other characters denote a number.
* `Run front run behind`: a longest run of characters that are no marks.  `exists_run_of_ofText`: the literals of a
  text are its runs.  `tokens_eq_error_iff`: the first of them that denotes no number is the error.
* `Nests depth t`, `Mismatched s`: how far the parentheses of a text match, by counting them in what stands in front.
  `exists_arrange_iff_not_mismatched`: the tokens of a text are put in order exactly if they do.
* `height items`, `Unbalanced items`: how many numbers the items leave, and when they leave more or less than one.
  `exists_runItems_iff`: items leave a single number exactly if they are balanced.
* `value_eq_error_iff`: when there is which error, and when there is none.
-/

namespace DocState
namespace Expression

/-! ## Literals -/

/-- Digits with at most one point among them, of which the nearest double is finite. -/
def IsLiteral (l : Text) : Prop :=
  ∃ whole fraction : Text, (l = whole ∧ fraction = [] ∨ l = whole ++ '.' :: fraction) ∧
    Decimal.isRun (whole ++ fraction) = true ∧
    (Double.ofDecimal (Decimal.value (whole ++ fraction)) fraction.length).isFinite = true

theorem isLiteral_of_denotes {l : Text} {x : Float} (h : Double.ofLiteral? l = some x) : IsLiteral l := by
  unfold Double.ofLiteral? at h
  simp only [Option.ite_none_right_eq_some, Bool.and_eq_true] at h
  refine ⟨_, _, ?_, h.1.1, h.1.2⟩
  have hsplit : l.takeWhile (· != '.') ++ l.dropWhile (· != '.') = l := List.takeWhile_append_dropWhile
  cases hdrop : l.dropWhile (· != '.') with
  | nil =>
    rw [hdrop, List.append_nil] at hsplit
    exact .inl ⟨hsplit.symm, rfl⟩
  | cons c fraction =>
    have hpoint := List.head?_dropWhile_not (fun c => c != '.') l
    rw [hdrop] at hpoint
    obtain rfl : c = '.' := by simpa using hpoint
    exact .inr (by rw [List.drop_one, List.tail_cons, ← hdrop, hsplit])

theorem exists_denotes_of_isLiteral {l : Text} (h : IsLiteral l) : ∃ x, Double.ofLiteral? l = some x := by
  obtain ⟨whole, fraction, hl, hrun, hfinite⟩ := h
  have hwhole : ∀ c ∈ whole, (c != '.') = true := by
    intro c hc
    rw [Decimal.isRun, Bool.and_eq_true, List.all_eq_true] at hrun
    have hdigit := hrun.2 c (List.mem_append_left _ hc)
    rw [bne_iff_ne]
    rintro rfl
    exact absurd hdigit (by decide)
  have hparts : l.takeWhile (· != '.') = whole ∧ (l.dropWhile (· != '.')).drop 1 = fraction := by
    rcases hl with ⟨rfl, rfl⟩ | rfl
    · rw [List.takeWhile_eq_self_iff.2 hwhole, List.dropWhile_eq_nil_iff.2 hwhole]
      exact ⟨rfl, rfl⟩
    · rw [List.takeWhile_append_of_pos hwhole, List.dropWhile_append_of_pos hwhole]
      simp
  unfold Double.ofLiteral?
  simp only [hparts.1, hparts.2, hrun, hfinite, Bool.and_self, if_true]
  exact ⟨_, rfl⟩

/-- A run of characters denotes a number exactly if it is a literal. -/
theorem denotes_iff {l : Text} : Double.ofLiteral? l = none ↔ ¬ IsLiteral l := by
  constructor
  · rintro hnone h
    obtain ⟨x, hx⟩ := exists_denotes_of_isLiteral h
    rw [hnone] at hx
    cases hx
  · intro h
    cases hvalue : Double.ofLiteral? l with
    | none => rfl
    | some x => exact absurd (isLiteral_of_denotes hvalue) h

/-! ## Runs of characters that are no marks -/

/-- Between two texts stands a run of characters that are no marks, and none of them goes on with the run. -/
structure Run (front run behind : Text) : Prop where
  nonempty : run ≠ []
  unmarked : ∀ c ∈ run, Mark.ofChar? c = none
  begins : Marked front
  ends : Ended behind

theorem Run.ofText_append {front run behind : Text} (h : Run front run behind) :
    Lexeme.ofText (front ++ (run ++ behind)) = Lexeme.ofText front ++ .literal run :: Lexeme.ofText behind :=
  Lexeme.ofText_append_run h.nonempty h.unmarked h.begins h.ends

/-- A text is empty, or begins with a mark or with a run of other characters. -/
@[elab_as_elim]
theorem byRuns {motive : Text → Prop} (nil : motive [])
    (mark : ∀ c m s, Mark.ofChar? c = some m → motive s → motive (c :: s))
    (run : ∀ run rest, run ≠ [] → (∀ c ∈ run, Mark.ofChar? c = none) → Ended rest → motive rest → motive (run ++ rest))
    (s : Text) : motive s := by
  induction hlength : s.length using Nat.strongRecOn generalizing s with
  | ind n ih =>
    subst hlength
    cases s with
    | nil => exact nil
    | cons c s =>
      cases hc : Mark.ofChar? c with
      | some m => exact mark c m s hc (ih _ (Nat.lt_succ_self _) s rfl)
      | none =>
        let unmarked : Char → Bool := fun d => (Mark.ofChar? d).isNone
        have hsplit : s.takeWhile unmarked ++ s.dropWhile unmarked = s := List.takeWhile_append_dropWhile
        have hmarks : ∀ d ∈ c :: s.takeWhile unmarked, Mark.ofChar? d = none := by
          refine List.forall_mem_cons.2 ⟨hc, fun d hd => ?_⟩
          exact Option.isNone_iff_eq_none.1 (List.all_eq_true.1 List.all_takeWhile d hd)
        have hended : Ended (s.dropWhile unmarked) := by
          intro d hd
          have hhead := List.head?_dropWhile_not unmarked s
          rw [Option.mem_def.1 hd] at hhead
          simpa [unmarked, Option.isSome_iff_ne_none] using hhead
        have hlater := ih (s.dropWhile unmarked).length (Nat.lt_succ_of_le (List.dropWhile_sublist _).length_le) _ rfl
        rw [← hsplit, ← List.cons_append]
        exact run _ _ (List.cons_ne_nil _ _) hmarks hended hlater

/-- A run does not begin where a run has ended. -/
theorem Ended.not_begins {run behind : Text} (hne : run ≠ []) (hmarks : ∀ c ∈ run, Mark.ofChar? c = none) :
    ¬ Ended (run ++ behind) := by
  obtain ⟨c, rest, rfl⟩ := List.exists_cons_of_ne_nil hne
  intro hended
  have hc := hended c rfl
  rw [hmarks c List.mem_cons_self] at hc
  cases hc

/-- Every literal of a text is a run of it. -/
theorem exists_run_of_ofText {s run : Text} {before after : List Lexeme}
    (h : Lexeme.ofText s = before ++ .literal run :: after) :
    ∃ front behind, s = front ++ (run ++ behind) ∧ Run front run behind ∧ Lexeme.ofText front = before := by
  induction s using byRuns generalizing before with
  | nil => simp [Lexeme.ofText] at h
  | mark c m s hc ih =>
    have hread : ∀ t, Lexeme.ofText (c :: t) = .mark m :: Lexeme.ofText t := fun t => by rw [Lexeme.ofText, hc]
    rw [hread] at h
    cases before with
    | nil => cases h
    | cons first before =>
      obtain ⟨rfl, hlater⟩ := List.cons.inj h
      obtain ⟨front, behind, rfl, hrun, rfl⟩ := ih hlater
      refine ⟨c :: front, behind, rfl, { hrun with begins := fun d hd => ?_ }, hread front⟩
      cases front with
      | nil =>
        obtain rfl : c = d := Option.some.inj hd
        simp [hc]
      | cons e front => exact hrun.begins d (by rwa [List.getLast?_cons_cons] at hd)
  | run first rest hne hmarks hended ih =>
    rw [lexemes_of_literal hne hmarks hended] at h
    cases before with
    | nil =>
      obtain ⟨⟨⟩, -⟩ := List.cons.inj h
      have hbegins : Marked [] := fun d hd => by cases hd
      exact ⟨[], rest, rfl, ⟨hne, hmarks, hbegins, hended⟩, rfl⟩
    | cons _ before =>
      obtain ⟨rfl, hlater⟩ := List.cons.inj h
      obtain ⟨front, behind, rfl, hrun, rfl⟩ := ih hlater
      have hfront : front ≠ [] := by
        rintro rfl
        exact Ended.not_begins hrun.nonempty hrun.unmarked hended
      have hended' : Ended front := fun d hd => hended d (by rwa [List.head?_append_of_ne_nil _ hfront])
      refine ⟨first ++ front, behind, (List.append_assoc _ _ _).symm, { hrun with begins := fun d hd => ?_ },
        lexemes_of_literal hne hmarks hended'⟩
      exact hrun.begins d (by rwa [List.getLast?_append_of_ne_nil _ hfront] at hd)

/-- The run is the first one in the text that is no literal. -/
def FirstFault (s run : Text) : Prop :=
  ∃ front behind, s = front ++ (run ++ behind) ∧ Run front run behind ∧ ¬ IsLiteral run ∧
    ∀ front' run' behind', s = front' ++ (run' ++ behind') → Run front' run' behind' → ¬ IsLiteral run' →
      front.length ≤ front'.length

theorem length_le_of_ofText {front front' : Text} {later : List Lexeme}
    (h : Lexeme.ofText front' = Lexeme.ofText front ++ later) :
    front'.length = front.length + (later.flatMap Lexeme.text).length := by
  have htext := congrArg (List.flatMap Lexeme.text) h
  rw [List.flatMap_append, Lexeme.flatMap_text_ofText, Lexeme.flatMap_text_ofText] at htext
  rw [htext, List.length_append]

/-- The tokens of a text are not read exactly if it has a run that is no literal, and the first one is the error. -/
theorem tokens_eq_error_iff {text : Text} {e : Error} :
    tokens text = .error e ↔ ∃ run, FirstFault text.withoutBlanks run ∧ e = .invalidNumber run := by
  rw [tokens, assemble_eq_error_iff]
  constructor
  · rintro ⟨before, run, after, hlexemes, hvalue, hbefore, rfl⟩
    obtain ⟨front, behind, hs, hrun, rfl⟩ := exists_run_of_ofText hlexemes
    refine ⟨run, ⟨front, behind, hs, hrun, denotes_iff.1 hvalue, fun front' run' behind' hs' hrun' hfault => ?_⟩, rfl⟩
    -- another such run stands behind this one, or is this one
    have hlexemes' := hrun'.ofText_append
    rw [← hs', hlexemes] at hlexemes'
    rcases List.append_eq_append_iff.1 hlexemes' with ⟨later, hfront, -⟩ | ⟨later, hfront, hlater⟩
    · rw [length_le_of_ofText hfront]
      exact Nat.le_add_right _ _
    · cases later with
      | nil => exact (length_le_of_ofText hfront).le
      | cons m later =>
        obtain ⟨rfl, -⟩ := List.cons.inj hlater
        exact absurd (denotes_iff.2 hfault) (hbefore run' (by rw [hfront]; simp))
  · rintro ⟨run, ⟨front, behind, hs, hrun, hfault, hfirst⟩, rfl⟩
    have hlexemes := hrun.ofText_append
    rw [← hs] at hlexemes
    refine ⟨_, run, _, hlexemes, denotes_iff.2 hfault, fun run' hmem hvalue => ?_, rfl⟩
    -- a run in front of the first one would be an earlier one
    obtain ⟨before, after, hfront⟩ := List.append_of_mem hmem
    rw [hfront, List.append_assoc, List.cons_append] at hlexemes
    obtain ⟨front', behind', hs', hrun', rfl⟩ := exists_run_of_ofText hlexemes
    have hle := hfirst front' run' behind' hs' hrun' (denotes_iff.1 hvalue)
    have hpos : 0 < run'.length := List.length_pos_iff.2 hrun'.nonempty
    rw [length_le_of_ofText hfront, List.flatMap_cons, List.length_append] at hle
    have htext : (Lexeme.literal run').text.length = run'.length := rfl
    omega

/-! ## Parentheses -/

/-- Nowhere in the text have more groups been closed than have been opened, `depth` of them in front of it; at its end
all are closed. -/
def Nests (depth : Nat) (t : Text) : Prop :=
  (∀ p, p <+: t → p.count ')' ≤ depth + p.count '(') ∧ t.count ')' = depth + t.count '('

/-- A text closes a group that is not open, or leaves one open. -/
def Mismatched (s : Text) : Prop := (∃ p, p <+: s ∧ p.count '(' < p.count ')') ∨ s.count '(' ≠ s.count ')'

theorem nests_zero_iff {s : Text} : Nests 0 s ↔ ¬ Mismatched s := by
  simp only [Nests, Mismatched, Nat.zero_add, not_or, not_exists, not_and, Nat.not_lt, ne_eq, not_not]
  exact and_congr_right' eq_comm

variable {depth : Nat} {t : Text}

theorem forall_prefix_cons {c : Char} {P : Text → Prop} :
    (∀ p, p <+: c :: t → P p) ↔ P [] ∧ ∀ p, p <+: t → P (c :: p) := by
  constructor
  · exact fun h => ⟨h [] List.nil_prefix, fun p hp => h (c :: p) (List.cons_prefix_cons.2 ⟨rfl, hp⟩)⟩
  · rintro ⟨hnil, hcons⟩ p hp
    rcases List.prefix_cons_iff.1 hp with rfl | ⟨q, rfl, hq⟩
    · exact hnil
    · exact hcons q hq

theorem nests_nil : Nests depth [] ↔ depth = 0 := by
  simp [Nests]
  omega

theorem nests_opening : Nests depth ('(' :: t) ↔ Nests (depth + 1) t := by
  simp [Nests, forall_prefix_cons, Nat.add_right_comm, Nat.add_assoc]

theorem nests_closing : Nests (depth + 1) (')' :: t) ↔ Nests depth t := by
  simp [Nests, forall_prefix_cons, Nat.add_right_comm]

theorem not_nests_closing : ¬ Nests 0 (')' :: t) := by
  intro h
  exact absurd (h.1 [')'] (by simp)) (by decide)

theorem nests_other {c : Char} (hopening : c ≠ '(') (hclosing : c ≠ ')') : Nests depth (c :: t) ↔ Nests depth t := by
  simp [Nests, forall_prefix_cons, hopening, hclosing]

theorem nests_sign (s : Sign) : Nests depth ((Lexeme.mark s.mark).text ++ t) ↔ Nests depth t := by
  cases s <;> exact nests_other (by decide) (by decide)

theorem nests_scaling (s : Scaling) : Nests depth ((Lexeme.mark s.mark).text ++ t) ↔ Nests depth t := by
  cases s <;> exact nests_other (by decide) (by decide)

theorem nests_append_of_literal (l : Literal) : Nests depth (l.text ++ t) ↔ Nests depth t := by
  have hplain : ∀ c ∈ l.text, c ≠ '(' ∧ c ≠ ')' := by
    intro c hc
    have hmark := mark_eq_none_of_isLiteralChar (l.isLiteralChar_of_mem hc)
    constructor <;> rintro rfl <;> cases hmark
  generalize l.text = characters at hplain
  induction characters with
  | nil => exact Iff.rfl
  | cons c characters ih =>
    obtain ⟨hc, hlater⟩ := List.forall_mem_cons.1 hplain
    exact (nests_other hc.1 hc.2).trans (ih hlater)

/-- The tokens of a step close and open the groups that its lexeme closes and opens. -/
theorem Step.closesGroups_iff {place place' : Place} {m : Lexeme} {out later : List Token}
    (h : Step place m out place') (hlater : ∀ depth, ClosesGroups depth later ↔ Nests depth t) (depth : Nat) :
    ClosesGroups depth (out ++ later) ↔ Nests depth (m.text ++ t) := by
  cases h with
  | sign s odd =>
    rw [nests_sign, List.nil_append, hlater]
  | sum s =>
    rw [nests_sign, ← hlater]
    simp [ClosesGroups]
  | scale s =>
    rw [nests_scaling, ← hlater, List.append_assoc, closesGroups_sign_append]
    simp [ClosesGroups]
  | opening =>
    rw [List.append_assoc, closesGroups_sign_append]
    exact (hlater (depth + 1)).trans nests_opening.symm
  | closing =>
    rw [List.append_assoc, closesGroups_sign_append]
    cases depth with
    | zero => exact ⟨fun h => absurd h id, fun h => absurd h not_nests_closing⟩
    | succ depth => exact (hlater depth).trans nests_closing.symm
  | literal l =>
    rw [List.append_assoc, closesGroups_sign_append, Lexeme.text, nests_append_of_literal, ← hlater]
    simp [ClosesGroups]

/-- The parentheses among the tokens match if and only if those in the text do. -/
theorem closesGroups_iff_nests {place : Place} {lexemes : List Lexeme} {ts : List Token}
    (h : assemble place lexemes = .ok ts) (depth : Nat) :
    ClosesGroups depth ts ↔ Nests depth (lexemes.flatMap Lexeme.text) := by
  induction lexemes generalizing place ts depth with
  | nil =>
    obtain rfl : place.sign = ts := by
      rcases place with (_ | _) | _ <;> exact Except.ok.inj h
    have hsign := closesGroups_sign_append place depth []
    rw [List.append_nil] at hsign
    exact hsign.trans nests_nil.symm
  | cons m rest ih =>
    obtain ⟨out, place', later, hstep, hlater, rfl⟩ := exists_step h
    exact hstep.closesGroups_iff (ih hlater) depth

/-- The tokens of a text are put in order if and only if its parentheses match. -/
theorem exists_arrange_iff_not_mismatched {text : Text} {ts : List Token} (h : tokens text = .ok ts) :
    (∃ items, arrange [] ts = some items) ↔ ¬ Mismatched text.withoutBlanks := by
  have hgroups := closesGroups_iff_nests h 0
  rw [Lexeme.flatMap_text_ofText, nests_zero_iff] at hgroups
  exact exists_arrange_iff.trans hgroups

/-! ## Heights -/

/-- How much higher the items make a stack: a number adds one, and an operation with two operands takes one off. -/
def height (items : List Item) : Int := numbers (items.map Item.token) - binaries (items.map Item.token)

/-- Items that are read above `base` numbers reach an operation that lacks an operand. -/
def Lacks (base : Int) (items : List Item) : Prop :=
  (∃ front behind, items = front ++ .operator .negate :: behind ∧ base + height front = 0) ∨
    ∃ front op behind, items = front ++ .operator (.binary op) :: behind ∧ base + height front < 2

/-- Items that reach an operation without its operands, or do not leave a single number. -/
def Unbalanced (items : List Item) : Prop :=
  (∃ front behind, items = front ++ .operator .negate :: behind ∧ height front = 0) ∨
    (∃ front op behind, items = front ++ .operator (.binary op) :: behind ∧ height front < 2) ∨ height items ≠ 1

theorem height_cons (item : Item) (items : List Item) : height (item :: items) = height [item] + height items := by
  simp only [height, List.map_cons, List.map_nil, numbers_cons, binaries_cons]
  show _ = (((0 + if item.token.isNumber then 1 else 0 : Nat) : Int) - (0 + if item.token.isBinary then 1 else 0 : Nat)) + _
  omega

theorem length_eq_add_height {items : List Item} {stack after : List Float} (h : runItems items stack = some after) :
    (after.length : Int) = stack.length + height items := by
  have hlength := length_of_runItems h
  unfold height
  omega

/-- What is on the stack between two runs of items. -/
theorem exists_runItems_between {front behind : List Item} {stack after : List Float}
    (h : runItems (front ++ behind) stack = some after) :
    ∃ between, runItems behind between = some after ∧ (between.length : Int) = stack.length + height front := by
  rw [runItems_append] at h
  obtain ⟨between, hfront, hbehind⟩ := Option.bind_eq_some_iff.1 h
  exact ⟨between, hbehind, length_eq_add_height hfront⟩

theorem Lacks.cons {base : Int} {item : Item} {items : List Item} (h : Lacks (base + height [item]) items) :
    Lacks base (item :: items) := by
  rcases h with ⟨front, behind, rfl, hzero⟩ | ⟨front, op, behind, rfl, hless⟩
  · refine .inl ⟨item :: front, behind, rfl, ?_⟩
    rw [height_cons]
    omega
  · refine .inr ⟨item :: front, op, behind, rfl, ?_⟩
    rw [height_cons]
    omega

/-- A run of items stops exactly at an operation that lacks an operand. -/
theorem runItems_eq_none_iff {items : List Item} {stack : List Float} :
    runItems items stack = none ↔ Lacks stack.length items := by
  constructor
  · intro h
    fun_induction runItems items stack with
    | case1 stack => cases h
    | case2 rest stack x ih => exact Lacks.cons (ih h)
    | case3 rest x stack ih => exact Lacks.cons (ih h)
    | case4 op rest b a stack ih =>
      have hheight : ((b :: a :: stack).length : Int) + height [.operator (.binary op)] =
          (op.apply a b :: stack).length := by
        show ((stack.length + 1 + 1 : Nat) : Int) + (0 - 1) = (stack.length + 1 : Nat)
        omega
      refine Lacks.cons ?_
      rw [hheight]
      exact ih h
    | case5 op rest stack hnegate hbinary =>
      cases op with
      | negate =>
        cases stack with
        | nil => exact .inl ⟨[], rest, rfl, rfl⟩
        | cons x stack => exact absurd rfl (hnegate x stack rfl)
      | binary op =>
        refine .inr ⟨[], op, rest, rfl, ?_⟩
        rcases stack with _ | ⟨b, _ | ⟨a, stack⟩⟩
        · exact (by decide : (0 : Int) + 0 < 2)
        · exact (by decide : (1 : Int) + 0 < 2)
        · exact absurd rfl (hbinary op b a stack rfl)
  · intro h
    by_contra hsome
    obtain ⟨after, hafter⟩ := Option.ne_none_iff_exists'.1 hsome
    rcases h with ⟨front, behind, rfl, hzero⟩ | ⟨front, op, behind, rfl, hless⟩
    · obtain ⟨between, hoperation, hlength⟩ := exists_runItems_between hafter
      cases between with
      | nil => cases hoperation
      | cons x between =>
        rw [List.length_cons] at hlength
        omega
    · obtain ⟨between, hoperation, hlength⟩ := exists_runItems_between hafter
      rcases between with _ | ⟨b, _ | ⟨a, between⟩⟩
      · cases hoperation
      · cases hoperation
      · simp only [List.length_cons] at hlength
        omega

theorem unbalanced_iff {items : List Item} : Unbalanced items ↔ Lacks 0 items ∨ height items ≠ 1 := by
  simp only [Unbalanced, Lacks, Int.zero_add, or_assoc]

/-- Items leave a single number exactly if they are balanced. -/
theorem exists_runItems_iff {items : List Item} : (∃ x, runItems items [] = some [x]) ↔ ¬ Unbalanced items := by
  have hlacks : runItems items [] = none ↔ Lacks 0 items := runItems_eq_none_iff
  rw [unbalanced_iff, not_or, not_not, ← hlacks]
  cases hrun : runItems items [] with
  | none => simp
  | some after =>
    have hlength : (after.length : Int) = 0 + height items := length_eq_add_height hrun
    have hone : height items = 1 ↔ after.length = 1 := by omega
    rw [hone, List.length_eq_one_iff]
    simp

/-! ## All that can be wrong -/

variable {text : Text} {ts : List Token} {items : List Item} {e : Error}

theorem value_of_tokens_eq_error (h : tokens text = .error e) : value text = .error e := by
  simp only [value, Postfix.ofText, h, bind, Except.bind]

theorem value_of_arrange_eq_none (htokens : tokens text = .ok ts) (h : arrange [] ts = none) :
    value text = .error (.mismatchedParentheses text) := by
  simp only [value, Postfix.ofText, htokens, h, bind, Except.bind]

theorem ofText_of_arrange (htokens : tokens text = .ok ts) (h : arrange [] ts = some items) :
    Postfix.ofText text = .ok ⟨text, items⟩ := by
  simp only [Postfix.ofText, htokens, h, bind, Except.bind]

theorem value_of_unbalanced (hitems : Postfix.ofText text = .ok ⟨text, items⟩) (h : Unbalanced items) :
    value text = .error (.invalidExpression text) := by
  simp only [value, hitems, bind, Except.bind, Postfix.value]
  split
  · rename_i x hrun
    exact absurd h (exists_runItems_iff.1 ⟨x, hrun⟩)
  · rfl

theorem exists_value_of_not_unbalanced (hitems : Postfix.ofText text = .ok ⟨text, items⟩) (h : ¬ Unbalanced items) :
    ∃ x, value text = .ok x := by
  obtain ⟨x, hrun⟩ := exists_runItems_iff.2 h
  exact ⟨x, by simp only [value, hitems, bind, Except.bind, Postfix.value, hrun]⟩

theorem not_exists_firstFault (h : tokens text = .ok ts) : ¬ ∃ run, FirstFault text.withoutBlanks run := by
  rintro ⟨run, hfirst⟩
  have herror := tokens_eq_error_iff.2 ⟨run, hfirst, rfl⟩
  rw [h] at herror
  cases herror

/-- The errors of a text, and when there is none.  The first run of characters other than marks that is no literal comes
before all else, and parentheses that do not match before operations that lack an operand and numbers that are left
over. -/
theorem value_eq_error_iff (text : Text) :
    let s := text.withoutBlanks
    (∀ run, value text = .error (.invalidNumber run) ↔ FirstFault s run) ∧
      (value text = .error (.mismatchedParentheses text) ↔ (¬ ∃ run, FirstFault s run) ∧ Mismatched s) ∧
      (value text = .error (.invalidExpression text) ↔ (¬ ∃ run, FirstFault s run) ∧ ¬ Mismatched s ∧
        ∃ items, Postfix.ofText text = .ok ⟨text, items⟩ ∧ Unbalanced items) ∧
      ((∃ x, value text = .ok x) ↔ (¬ ∃ run, FirstFault s run) ∧ ¬ Mismatched s ∧
        ∃ items, Postfix.ofText text = .ok ⟨text, items⟩ ∧ ¬ Unbalanced items) := by
  intro s
  cases htokens : tokens text with
  | error e =>
    obtain ⟨run, hfirst, rfl⟩ := tokens_eq_error_iff.1 htokens
    have hfault : ∃ run, FirstFault s run := ⟨run, hfirst⟩
    rw [value_of_tokens_eq_error htokens]
    refine ⟨fun run' => ⟨?_, fun hfirst' => ?_⟩, ?_, ?_, ?_⟩
    · rintro ⟨⟩
      exact hfirst
    · obtain ⟨⟩ := htokens.symm.trans (tokens_eq_error_iff.2 ⟨run', hfirst', rfl⟩)
      rfl
    all_goals simp [hfault]
  | ok ts =>
    have hnone : ¬ ∃ run, FirstFault s run := not_exists_firstFault htokens
    have hnever : ∀ run, ¬ FirstFault s run := not_exists.1 hnone
    have hmatch : (∃ items, arrange [] ts = some items) ↔ ¬ Mismatched s := exists_arrange_iff_not_mismatched htokens
    cases harrange : arrange [] ts with
    | none =>
      have hmismatched : Mismatched s := by
        by_contra h
        obtain ⟨items, hitems⟩ := hmatch.2 h
        rw [harrange] at hitems
        cases hitems
      rw [value_of_arrange_eq_none htokens harrange]
      simp [hnever, hmismatched]
    | some items =>
      have hmatched : ¬ Mismatched s := hmatch.1 ⟨items, harrange⟩
      have hitems := ofText_of_arrange htokens harrange
      by_cases hunbalanced : Unbalanced items
      · rw [value_of_unbalanced hitems hunbalanced]
        simp [hnever, hmatched, hitems, hunbalanced]
      · obtain ⟨x, hx⟩ := exists_value_of_not_unbalanced hitems hunbalanced
        rw [hx]
        simp [hnever, hmatched, hitems, hunbalanced]

end Expression
end DocState
