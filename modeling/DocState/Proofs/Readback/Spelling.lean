import DocState.Session

/-!
# How names are spelled

An argument spells a name, with a backslash in front of it or without, and with blanks around it or without.  What is
left of the argument never ends with a blank.  So a name that has been read can be written behind a backslash, where it
is read back whatever it is: even if it is empty, begins with a blank or is itself a backslash.

* `Name.spelled_eq_ok_iff`: the two spellings of a name.  `Name.spelled_escaped`: behind a backslash, any name is read
  that does not end with a blank.
* `Session.name_eq_ok_iff`: a session reads the name that is spelled, if it is valid or names are not checked.
* `Session.name_respelled`: a name that has been read is read back.
-/

namespace DocState

/-! ## Spellings -/

namespace Name

variable {command command' raw name : Text} {marked : Bool}

/-- An argument spells what stands behind its backslash, or all of it if it has none and needs none. -/
theorem spelled_eq_ok_iff : spelled command marked raw = .ok name ↔
    raw.trim = '\\' :: name ∨ marked = false ∧ raw.trim = name ∧ name.head? ≠ some '\\' := by
  unfold spelled
  split
  · rename_i rest heq
    rw [heq]
    constructor
    · intro h
      exact .inl (congrArg _ (Except.ok.inj h))
    · rintro (h | ⟨-, rfl, hhead⟩)
      · rw [(List.cons.inj h).2]
      · exact absurd rfl hhead
  · rename_i hplain
    have hhead : raw.trim.head? ≠ some '\\' := by
      intro hhead
      obtain ⟨rest, hrest⟩ := List.head?_eq_some_iff.1 hhead
      exact hplain rest hrest
    cases marked with
    | true =>
      refine ⟨nofun, ?_⟩
      rintro (h | ⟨h, -⟩)
      · exact absurd h (hplain name)
      · cases h
    | false =>
      constructor
      · intro h
        obtain rfl := Except.ok.inj h
        exact .inr ⟨rfl, rfl, hhead⟩
      · rintro (h | ⟨-, rfl, -⟩)
        · exact absurd h (hplain name)
        · rfl

theorem spelled_unmarked : spelled command false raw = spelled command' false raw := by
  unfold spelled
  split <;> rfl

/-- Blanks at the end of an argument are no part of its name. -/
theorem isBlank_getLast?_of_spelled (h : spelled command marked raw = .ok name) :
    ∀ c ∈ name.getLast?, isBlank c = false := by
  intro c hc
  refine Text.getLast?_trim raw c ?_
  rcases spelled_eq_ok_iff.1 h with hraw | ⟨-, hraw, -⟩
  · rw [hraw, List.getLast?_cons, Option.mem_def.1 hc]
    rfl
  · rwa [hraw]

/-- Behind a backslash, with blanks around it or without, any name is read that does not end with a blank. -/
theorem spelled_escaped {before after : Text} (hlast : ∀ c ∈ name.getLast?, isBlank c = false)
    (hbefore : ∀ c ∈ before, isBlank c = true) (hafter : ∀ c ∈ after, isBlank c = true) :
    spelled command marked (before ++ ('\\' :: name ++ after)) = .ok name := by
  refine spelled_eq_ok_iff.2 (.inl (Text.trim_append hbefore hafter ?_ fun c hc => ?_))
  · rintro c ⟨⟩
    rfl
  · rw [List.getLast?_cons] at hc
    cases hname : name.getLast? with
    | none =>
      rw [hname] at hc
      cases hc
      rfl
    | some d =>
      rw [hname] at hc
      obtain rfl := Option.some.inj hc
      exact hlast d hname

theorem checked_eq_ok_iff :
    checked command marked raw = .ok name ↔ spelled command marked raw = .ok name ∧ isValid name = true := by
  unfold checked
  cases hspelled : spelled command marked raw with
  | error e => simp [bind, Except.bind]
  | ok spelled =>
    by_cases hvalid : isValid spelled = true
    · simp only [bind, Except.bind, if_pos hvalid, Except.ok.injEq]
      exact ⟨fun h => ⟨h, h ▸ hvalid⟩, And.left⟩
    · simp only [bind, Except.bind, if_neg hvalid, Except.ok.injEq, reduceCtorEq, false_iff]
      rintro ⟨rfl, h⟩
      exact hvalid h

end Name

/-! ## Names that a session reads -/

namespace Session

variable {s : Session} {command command' raw name : Text} {marked : Bool}

theorem name_eq_ok_iff : s.name command marked raw = .ok name ↔
    Name.spelled command marked raw = .ok name ∧ (s.options.checkNames = true → Name.isValid name = true) := by
  unfold Session.name
  by_cases hchecks : s.options.checkNames = true
  · rw [if_pos hchecks, Name.checked_eq_ok_iff]
    simp [hchecks]
  · rw [if_neg hchecks]
    simp [hchecks]

theorem name_eq_ok_congr (h : s.name command false raw = .ok name) : s.name command' false raw = .ok name := by
  rw [name_eq_ok_iff] at h ⊢
  rwa [Name.spelled_unmarked]

/-- A name that has been read is read back from its control sequence, with blanks around that or without, by any command,
whether it needs the backslash or not. -/
theorem name_respelled (h : s.name command marked raw = .ok name) (command' : Text) (marked' : Bool)
    {before after : Text} (hbefore : ∀ c ∈ before, isBlank c = true) (hafter : ∀ c ∈ after, isBlank c = true) :
    s.name command' marked' (before ++ ('\\' :: name ++ after)) = .ok name := by
  obtain ⟨hspelled, hvalid⟩ := name_eq_ok_iff.1 h
  have hlast : ∀ c ∈ name.getLast?, isBlank c = false := Name.isBlank_getLast?_of_spelled hspelled
  exact name_eq_ok_iff.2 ⟨Name.spelled_escaped hlast hbefore hafter, hvalid⟩

/-- A backslash as a name, where names are checked; the empty name and a name that begins with a blank, where they are
not. -/
theorem name_respelled_backslash :
    let strict := fresh .standard
    let lenient := fresh .unchecked
    (strict.name [] false " \\\\".toList = .ok ['\\'] ∧ strict.name [] true "\n\\\\ ".toList = .ok ['\\']) ∧
    (lenient.name [] true "\\ ".toList = .ok [] ∧ lenient.name [] false " \\\t".toList = .ok []) ∧
    (lenient.name [] true "\\ two words ".toList = .ok " two words".toList ∧
      lenient.name [] false "\u3000\\ two words".toList = .ok " two words".toList) := by
  intro strict lenient
  have hbackslash : strict.name [] false " \\\\".toList = .ok ['\\'] := by rfl
  have hempty : lenient.name [] true "\\ ".toList = .ok [] := by rfl
  have hwords : lenient.name [] true "\\ two words ".toList = .ok " two words".toList := by rfl
  have hblank : ∀ c, isBlank c = true → ∀ c' ∈ [c], isBlank c' = true := fun c hc => List.forall_mem_singleton.2 hc
  exact ⟨⟨hbackslash, name_respelled hbackslash [] true (hblank '\n' rfl) (hblank ' ' rfl)⟩,
    ⟨hempty, name_respelled hempty [] false (hblank ' ' rfl) (hblank '\t' rfl)⟩,
    ⟨hwords, name_respelled hwords [] false (hblank '\u3000' rfl) nofun⟩⟩

end Session
end DocState
