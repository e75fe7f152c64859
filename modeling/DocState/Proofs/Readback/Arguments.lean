import DocState.Command.Report
import DocState.Proofs.Readback.Names

/-!
# Arguments read from a text

* `Scanner.IsArgument`: what a mandatory argument can be.  `Scanner.isArgument_of_mandatory`: there is nothing else.
* `IsHandler`: names that read back behind a backslash.
* `Scanner.readings_handed_iff`: the calls of a handler are read back call by call if and only if the items are
  balanced.
-/

namespace DocState

open Braces

namespace Scanner

variable {command text after rest : Text} {c : Char}

/-! ## What an argument can be -/

/-- What can be read as a mandatory argument: a balanced text, or one of the two characters that can stand without
braces but not in them. -/
def IsArgument (argument : Text) : Prop := IsBalanced argument ∨ argument = ['}'] ∨ argument = ['\\']

theorem IsArgument.isBalanced_iff {argument : Text} (h : IsArgument argument) :
    IsBalanced argument ↔ argument ≠ ['}'] ∧ argument ≠ ['\\'] := by
  constructor
  · intro hbalanced
    constructor <;> rintro rfl <;> exact absurd hbalanced (by decide)
  · rintro ⟨hclose, hbackslash⟩
    rcases h with hbalanced | rfl | rfl
    · exact hbalanced
    · exact absurd rfl hclose
    · exact absurd rfl hbackslash

/-- Among arguments, all are balanced unless one of the two characters is there. -/
theorem forall_isBalanced_iff {arguments : List Text} (h : ∀ argument ∈ arguments, IsArgument argument) :
    (∀ argument ∈ arguments, IsBalanced argument) ↔ ['}'] ∉ arguments ∧ ['\\'] ∉ arguments := by
  constructor
  · intro hbalanced
    exact ⟨fun hmem => ((h _ hmem).isBalanced_iff.1 (hbalanced _ hmem)).1 rfl,
      fun hmem => ((h _ hmem).isBalanced_iff.1 (hbalanced _ hmem)).2 rfl⟩
  · rintro ⟨hclose, hbackslash⟩ argument hmem
    exact (h argument hmem).isBalanced_iff.2 ⟨fun heq => hclose (heq ▸ hmem), fun heq => hbackslash (heq ▸ hmem)⟩

theorem isArgument_of_isToken {token : Text} (h : IsToken token after) (hopen : token.head? ≠ some '{') :
    IsArgument token := by
  cases h with
  | @single c _ hc =>
    rcases eq_or_plain c with rfl | rfl | rfl | hplain
    · exact absurd rfl hc
    · exact absurd rfl hopen
    · exact .inr (.inl rfl)
    · exact .inl ((closes_plain hplain).2 rfl)
  | @word letters _ nonempty letter _ =>
    obtain ⟨c, letters, rfl⟩ := List.exists_cons_of_ne_nil nonempty
    have hletters : ∀ c' ∈ letters, Plain c' := fun c' hc' => plain_of_isAlpha (letter c' (List.mem_cons_of_mem c hc'))
    exact .inl (closes_escaped.2 (isBalanced_of_forall_plain hletters))
  | symbol _ => exact .inl rfl
  | lone => exact .inr (.inr rfl)

theorem IsToken.head?_append {token : Text} (h : IsToken token after) : (token ++ after).head? = token.head? := by
  cases h <;> rfl

/-- A mandatory argument is balanced, or a closing brace or a backslash that stands alone. -/
theorem isArgument_of_mandatory {s : Scanner} {argument : Text} (h : (mandatory command s).1 = .ok argument) :
    IsArgument argument := by
  rcases mandatory_eq_ok_iff.1 (Prod.ext h rfl) with ⟨-, hbalanced⟩ | ⟨hopen, htext, htoken⟩
  · exact .inl hbalanced
  · rw [htext, htoken.head?_append] at hopen
    exact isArgument_of_isToken htoken hopen

/-- A text in braces is read back only if it is balanced. -/
theorem isBalanced_of_mandatory_braced {content : Text}
    (h : (mandatory command ⟨braced content ++ rest⟩).1 = .ok content) : IsBalanced content :=
  (mandatory_open_iff.1 (Prod.ext h rfl)).2

/-! ## Calls of a handler -/

/-- A name that is read back behind a backslash: one character that is no blank, or a run of letters. -/
def IsHandler (handler : Text) : Prop :=
  (∃ c, handler = [c] ∧ isBlank c = false) ∨ handler ≠ [] ∧ ∀ c ∈ handler, c.isAlpha = true

theorem isHandler_standardHandler : IsHandler standardHandler := .inr ⟨by decide, List.all_eq_true.1 rfl⟩

theorem IsHandler.length_le_reach {handler : Text} (h : IsHandler handler) :
    handler ≠ [] ∧ handler.length ≤ Name.reach handler := by
  rw [Name.length_le_reach_iff]
  rcases h with ⟨c, rfl, -⟩ | ⟨hne, hletters⟩
  · exact ⟨List.cons_ne_nil c [], .inl (Nat.le_refl 1)⟩
  · exact ⟨hne, .inr hletters⟩

theorem mandatory_handler {handler : Text} (h : IsHandler handler) (item rest : Text) :
    mandatory command ⟨'\\' :: handler ++ (braced item ++ rest)⟩ =
      (.ok ('\\' :: handler), ⟨braced item ++ rest⟩) := by
  have hbrace : ∀ c ∈ (braced item ++ rest).head?, c.isAlpha = false := by
    rintro c ⟨⟩
    rfl
  exact mandatory_escaped_of_le command h.length_le_reach.1 h.length_le_reach.2 hbrace

/-- The handler and the item of each call, in the order in which they are read. -/
def calls (handler : Text) (items : List Text) : List Text := items.flatMap fun item => ['\\' :: handler, item]

theorem handed_cons (handler item : Text) (items : List Text) :
    handed handler (item :: items) = '\\' :: handler ++ (braced item ++ handed handler items) := by
  simp [handed, braced]

/-- The calls of a handler are read back, with nothing left behind them, if and only if all items are balanced. -/
theorem readings_handed_iff {handler : Text} (h : IsHandler handler) {items : List Text} :
    readings command (2 * items.length) ⟨handed handler items⟩ = (.ok (calls handler items), ⟨[]⟩) ↔
      ∀ item ∈ items, IsBalanced item := by
  induction items with
  | nil => simp [readings, handed, calls]
  | cons item items ih =>
    have hcalls : calls handler (item :: items) = ('\\' :: handler) :: item :: calls handler items := rfl
    rw [handed_cons, hcalls, List.length_cons, Nat.mul_succ, readings_succ_eq_ok_iff, List.forall_mem_cons, ← ih]
    simp only [mandatory_handler h, readings_succ_eq_ok_iff]
    constructor
    · -- an item that is read back as itself is balanced, and only then is the rest read from where it begins
      rintro ⟨_, ⟨⟩, s', hitem, hlater⟩
      have hbalanced : IsBalanced item := isBalanced_of_mandatory_braced (congrArg Prod.fst hitem)
      rw [mandatory_braced hbalanced] at hitem
      cases hitem
      exact ⟨hbalanced, hlater⟩
    · rintro ⟨hbalanced, hlater⟩
      exact ⟨_, rfl, _, mandatory_braced hbalanced, hlater⟩

end Scanner
end DocState
