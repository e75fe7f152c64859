import Mathlib.Data.List.Induction
import DocState.Text

/-!
# Balanced braces

A reader of braces goes through a text and counts the groups that are open.  The character behind a backslash is
inert.

* `Braces.Standing`: where the reader stands.  `Standing.read`, `Standing.walk`: past one character, past a text.
* `Braces.Closes depth t`: behind `t`, the groups that `t` opens are closed, and `depth` more.  `Braces.IsBalanced`:
  none more.
* `Braces.braced`: a text as a group.
* `Braces.EndsPending`: the last character of a text is a backslash, and not inert.
* `Braces.byUnits`: induction on a text whose units are escaped pairs and single characters.
-/

namespace DocState
namespace Braces

/-! ## Definitions -/

/-- Where a reader stands: inside so many groups, and perhaps right behind a backslash. -/
structure Standing where
  depth : Nat
  escaped : Bool
deriving DecidableEq, Repr

namespace Standing

/-- Outside all groups, and not behind a backslash. -/
def ground : Standing := ⟨0, false⟩

/-- Past one more character. There is no way past a brace that closes a group where none is open. -/
def read (p : Standing) (c : Char) : Option Standing :=
  if p.escaped then some ⟨p.depth, false⟩
  else if c = '\\' then some ⟨p.depth, true⟩
  else if c = '{' then some ⟨p.depth + 1, false⟩
  else if c = '}' then if p.depth = 0 then none else some ⟨p.depth - 1, false⟩
  else some ⟨p.depth, false⟩

/-- Past a text. -/
def walk (p : Standing) (t : Text) : Option Standing := t.foldlM read p

end Standing

/-- The text closes all groups that it opens, and `depth` groups that are open before it. -/
def Closes (depth : Nat) (t : Text) : Prop := Standing.walk ⟨depth, false⟩ t = some .ground

/-- The text closes the groups that it opens and no other, and ends in no backslash that would make the next
character inert. -/
def IsBalanced (t : Text) : Prop := Closes 0 t

instance (depth : Nat) (t : Text) : Decidable (Closes depth t) := inferInstanceAs (Decidable (_ = _))

instance (t : Text) : Decidable (IsBalanced t) := inferInstanceAs (Decidable (Closes 0 t))

/-- A text as a group. -/
def braced (t : Text) : Text := '{' :: t ++ ['}']

/-- An odd number of backslashes ends the text, so that the last of them makes the next character inert. -/
def EndsPending (t : Text) : Prop := (t.reverse.takeWhile (· = '\\')).length % 2 = 1

instance (t : Text) : Decidable (EndsPending t) := inferInstanceAs (Decidable (_ = _))

/-- A character that neither bounds a group nor makes the next one inert. -/
def Plain (c : Char) : Prop := c ≠ '\\' ∧ c ≠ '{' ∧ c ≠ '}'

instance (c : Char) : Decidable (Plain c) := inferInstanceAs (Decidable (_ ∧ _))

theorem eq_or_plain (c : Char) : c = '\\' ∨ c = '{' ∨ c = '}' ∨ Plain c := by
  by_cases hbackslash : c = '\\'
  · exact .inl hbackslash
  by_cases hopen : c = '{'
  · exact .inr (.inl hopen)
  by_cases hclose : c = '}'
  · exact .inr (.inr (.inl hclose))
  · exact .inr (.inr (.inr ⟨hbackslash, hopen, hclose⟩))

theorem plain_of_isAlpha {c : Char} (h : c.isAlpha = true) : Plain c := by
  refine ⟨?_, ?_, ?_⟩ <;> rintro rfl <;> exact absurd h (by decide)

theorem plain_of_isDigit {c : Char} (h : c.isDigit = true) : Plain c := by
  refine ⟨?_, ?_, ?_⟩ <;> rintro rfl <;> exact absurd h (by decide)

theorem plain_of_isBlank {c : Char} (h : isBlank c = true) : Plain c := by
  refine ⟨?_, ?_, ?_⟩ <;> rintro rfl <;> exact absurd h (by decide)

/-- Texts by their units: a backslash with the character that it makes inert, a brace, a plain character, and perhaps
a backslash at the end. -/
@[elab_as_elim]
theorem byUnits {motive : Text → Prop} (nil : motive []) (pending : motive ['\\'])
    (escaped : ∀ c t, motive t → motive ('\\' :: c :: t)) (opening : ∀ t, motive t → motive ('{' :: t))
    (closing : ∀ t, motive t → motive ('}' :: t)) (plain : ∀ c t, Plain c → motive t → motive (c :: t)) :
    ∀ t, motive t
  | [] => nil
  | [c] => by
    rcases eq_or_plain c with rfl | rfl | rfl | hc
    · exact pending
    · exact opening [] nil
    · exact closing [] nil
    · exact plain c [] hc nil
  | c :: c' :: t => by
    have hshort := byUnits nil pending escaped opening closing plain t
    have hlong := byUnits nil pending escaped opening closing plain (c' :: t)
    rcases eq_or_plain c with rfl | rfl | rfl | hc
    · exact escaped c' t hshort
    · exact opening (c' :: t) hlong
    · exact closing (c' :: t) hlong
    · exact plain c (c' :: t) hc hlong

/-! ## Walks -/

namespace Standing

variable {p q : Standing} {d : Nat} {c : Char} {s t : Text}

theorem walk_cons : p.walk (c :: t) = (p.read c).bind (·.walk t) := rfl

theorem walk_append : p.walk (s ++ t) = (p.walk s).bind (·.walk t) := List.foldlM_append

theorem read_escaped : read ⟨d, true⟩ c = some ⟨d, false⟩ := rfl

theorem read_backslash : read ⟨d, false⟩ '\\' = some ⟨d, true⟩ := rfl

theorem read_open : read ⟨d, false⟩ '{' = some ⟨d + 1, false⟩ := rfl

theorem read_close_zero : read ⟨0, false⟩ '}' = none := rfl

theorem read_close : read ⟨d + 1, false⟩ '}' = some ⟨d, false⟩ := rfl

theorem read_plain (h : Plain c) : read ⟨d, false⟩ c = some ⟨d, false⟩ := by
  obtain ⟨hbackslash, hopen, hclose⟩ := h
  simp [read, hbackslash, hopen, hclose]

theorem walk_close : walk ⟨d + 1, false⟩ ('}' :: t) = walk ⟨d, false⟩ t := rfl

theorem walk_plain (h : Plain c) : walk ⟨d, false⟩ (c :: t) = walk ⟨d, false⟩ t := by
  rw [walk_cons, read_plain h]
  rfl

theorem walk_append_of_plain (h : ∀ c ∈ s, Plain c) : walk ⟨d, false⟩ (s ++ t) = walk ⟨d, false⟩ t := by
  induction s with
  | nil => rfl
  | cons c s ih =>
    rw [List.cons_append, walk_plain (h c List.mem_cons_self)]
    exact ih fun c' hc' => h c' (List.mem_cons_of_mem c hc')

theorem read_eq_none_iff : p.read c = none ↔ p = ground ∧ c = '}' := by
  obtain ⟨depth, escaped⟩ := p
  cases escaped with
  | true => simp [read, ground]
  | false =>
    rcases eq_or_plain c with rfl | rfl | rfl | hplain
    · simp [read_backslash]
    · simp [read_open]
    · cases depth with
      | zero => simp [read_close_zero, ground]
      | succ depth => simp [read_close, ground]
    · simp [read_plain hplain, hplain.2.2]

/-- A text cannot be read exactly if a brace in it closes more than what is open in front of it. -/
theorem walk_eq_none_iff : p.walk t = none ↔ ∃ s rest, t = s ++ '}' :: rest ∧ p.walk s = some ground := by
  constructor
  · intro h
    induction t generalizing p with
    | nil => cases h
    | cons c t ih =>
      cases hread : p.read c with
      | none =>
        obtain ⟨rfl, rfl⟩ := read_eq_none_iff.1 hread
        exact ⟨[], t, rfl, rfl⟩
      | some q =>
        rw [walk_cons, hread, Option.bind_some] at h
        obtain ⟨s, rest, rfl, hclosed⟩ := ih h
        exact ⟨c :: s, rest, rfl, by rw [walk_cons, hread, Option.bind_some, hclosed]⟩
  · rintro ⟨s, rest, rfl, hclosed⟩
    rw [walk_append, hclosed]
    rfl

end Standing

/-! ## Texts that end in a backslash -/

section Pending

variable {d : Nat} {c : Char} {t : Text}

theorem endsPending_concat : EndsPending (t ++ [c]) ↔ c = '\\' ∧ ¬ EndsPending t := by
  by_cases hc : c = '\\'
  · simp only [EndsPending, hc, List.reverse_concat, List.takeWhile_cons, decide_true, if_true, List.length_cons,
      true_and]
    omega
  · simp [EndsPending, hc]

theorem escaped_read {p q : Standing} (h : p.read c = some q) : q.escaped = true ↔ c = '\\' ∧ p.escaped = false := by
  obtain ⟨depth, escaped⟩ := p
  cases escaped with
  | true =>
    cases h
    simp
  | false =>
    rcases eq_or_plain c with rfl | rfl | rfl | hplain
    · cases h
      simp
    · cases h
      simp
    · cases depth with
      | zero => cases h
      | succ depth =>
        cases h
        simp
    · rw [Standing.read_plain hplain] at h
      cases h
      simp [hplain.1]

/-- Only a backslash at the end of a text leaves its reader behind one. -/
theorem escaped_walk {q : Standing} (h : Standing.walk ⟨d, false⟩ t = some q) : q.escaped = true ↔ EndsPending t := by
  -- from the end: the last character and whether it is inert decide, however deep the groups are
  induction t using List.reverseRecOn generalizing q with
  | nil =>
    cases h
    simp [EndsPending]
  | append_singleton t c ih =>
    rw [Standing.walk_append] at h
    obtain ⟨q', hwalk, hlast⟩ := Option.bind_eq_some_iff.1 h
    have hread : q'.read c = some q := by
      rw [Standing.walk_cons] at hlast
      obtain ⟨_, hread, ⟨⟩⟩ := Option.bind_eq_some_iff.1 hlast
      exact hread
    rw [escaped_read hread, endsPending_concat, ← ih hwalk, Bool.not_eq_true]

end Pending

/-! ## Texts that close groups -/

variable {d : Nat} {c : Char} {t : Text}

theorem closes_escaped : Closes d ('\\' :: c :: t) ↔ Closes d t := Iff.rfl

theorem closes_close : Closes (d + 1) ('}' :: t) ↔ Closes d t := Iff.rfl

theorem closes_plain (h : Plain c) : Closes d (c :: t) ↔ Closes d t := by
  rw [Closes, Standing.walk_plain h, Closes]

theorem isBalanced_of_forall_plain (h : ∀ c ∈ t, Plain c) : IsBalanced t := by
  have hwalk := Standing.walk_append_of_plain (d := 0) (t := []) h
  rwa [List.append_nil] at hwalk

theorem not_closes_pending : ¬ Closes d ['\\'] := fun h => by cases h

theorem not_closes_zero_close : ¬ Closes 0 ('}' :: t) := fun h => by cases h

theorem not_closes_succ_nil : ¬ Closes (d + 1) [] := fun h => by cases h

end Braces
end DocState
