import Mathlib.Data.List.TakeWhile
import DocState.Command.Execution
import DocState.Proofs.Readback.Scanning

/-!
# Names as control sequences

A name is valid if it is one character or a run of letters, and a scanner reads one character or a run of letters behind
a backslash.  The letters are not the same: those of names include the long s and the Kelvin sign, those of the scanner
are the letters of ASCII.

* `Name.reach name`: how much of a name is read behind a backslash.  `Scanner.mandatory_escaped`: so much, and no more.
* `Name.length_le_reach_iff_of_isValid`: the valid names that are read as a whole.
* `Scanner.mandatory_controlSequence`: both for a valid name and any text behind it.
-/

namespace DocState

/-! ## Letters -/

namespace Name

/-- How many characters of a name are read behind a backslash: the letters of ASCII at its start, or else one
character. -/
def reach (name : Text) : Nat := max 1 (name.takeWhile Char.isAlpha).length

variable {name : Text}

theorem take_reach_of_letter {c : Char} (hc : c.isAlpha = true) (rest : Text) :
    (c :: rest).take (reach (c :: rest)) = c :: rest.takeWhile Char.isAlpha ∧
      (c :: rest).drop (reach (c :: rest)) = rest.dropWhile Char.isAlpha := by
  have hsplit : rest.takeWhile Char.isAlpha ++ rest.dropWhile Char.isAlpha = rest := List.takeWhile_append_dropWhile
  have hreach : reach (c :: rest) = (rest.takeWhile Char.isAlpha).length + 1 := by
    rw [reach, List.takeWhile_cons, if_pos hc, List.length_cons]
    omega
  rw [hreach, List.take_succ_cons, List.drop_succ_cons]
  constructor
  · nth_rewrite 2 [← hsplit]
    rw [List.take_left]
  · nth_rewrite 2 [← hsplit]
    rw [List.drop_left]

theorem reach_of_not_letter {c : Char} (hc : c.isAlpha = false) (rest : Text) : reach (c :: rest) = 1 := by
  rw [reach, List.takeWhile_cons, hc]
  rfl

/-- What is read as a whole. -/
theorem length_le_reach_iff : name.length ≤ reach name ↔ name.length ≤ 1 ∨ ∀ c ∈ name, c.isAlpha = true := by
  have hle : (name.takeWhile Char.isAlpha).length ≤ name.length := (List.takeWhile_prefix _).length_le
  have hwhole : (name.takeWhile Char.isAlpha).length = name.length ↔ ∀ c ∈ name, c.isAlpha = true := by
    rw [← List.takeWhile_eq_self_iff]
    exact ⟨(List.takeWhile_prefix _).eq_of_length, congrArg List.length⟩
  rw [← hwhole]
  unfold reach
  omega

/-- Two letters of names are no letters of ASCII. -/
theorem isAlpha_iff_of_isLetter {c : Char} (h : isLetter c = true) : c.isAlpha = true ↔ c ≠ '\u017F' ∧ c ≠ '\u212A' := by
  constructor
  · intro halpha
    constructor <;> rintro rfl <;> exact absurd halpha (by decide)
  · rintro ⟨hlong, hkelvin⟩
    simpa [isLetter, hlong, hkelvin] using h

theorem ne_nil_of_isValid (h : isValid name = true) : name ≠ [] := by
  rintro rfl
  cases h

theorem isLetter_of_isValid (h : isValid name = true) (hlength : name.length ≠ 1) : ∀ c ∈ name, isLetter c = true := by
  rcases name with _ | ⟨c, _ | ⟨d, rest⟩⟩
  · cases h
  · exact absurd rfl hlength
  · exact List.all_eq_true.1 h

/-- A valid name is read as a whole, unless it has several characters and one of the two letters outside ASCII is among
them. -/
theorem length_le_reach_iff_of_isValid (h : isValid name = true) :
    name.length ≤ reach name ↔ name.length = 1 ∨ '\u017F' ∉ name ∧ '\u212A' ∉ name := by
  have hpos : 0 < name.length := List.length_pos_iff.2 (ne_nil_of_isValid h)
  have hone : name.length ≤ 1 ↔ name.length = 1 := by omega
  rw [length_le_reach_iff, hone]
  refine or_congr_right' fun hlength => ?_
  have hletter := isLetter_of_isValid h hlength
  constructor
  · intro halpha
    exact ⟨fun hmem => ((isAlpha_iff_of_isLetter (hletter _ hmem)).1 (halpha _ hmem)).1 rfl,
      fun hmem => ((isAlpha_iff_of_isLetter (hletter _ hmem)).1 (halpha _ hmem)).2 rfl⟩
  · rintro ⟨hlong, hkelvin⟩ c hc
    exact (isAlpha_iff_of_isLetter (hletter c hc)).2 ⟨fun heq => hlong (heq ▸ hc), fun heq => hkelvin (heq ▸ hc)⟩

end Name

/-! ## Reading -/

namespace Scanner

open Name

variable {name after : Text}

theorem isToken_escaped (hne : name ≠ []) (hafter : ∀ c ∈ after.head?, c.isAlpha = false) :
    IsToken ('\\' :: name.take (reach name)) (name.drop (reach name) ++ after) := by
  obtain ⟨c, rest, rfl⟩ := List.exists_cons_of_ne_nil hne
  by_cases hc : c.isAlpha = true
  · obtain ⟨htake, hdrop⟩ := take_reach_of_letter hc rest
    rw [htake, hdrop]
    refine .word (List.cons_ne_nil _ _) (List.forall_mem_cons.2 ⟨hc, List.all_eq_true.1 List.all_takeWhile⟩) ?_
    intro d hd
    cases hrest : rest.dropWhile Char.isAlpha with
    | nil => exact hafter d (by rwa [hrest] at hd)
    | cons e later =>
      have hhead := List.head?_dropWhile_not Char.isAlpha rest
      rw [hrest] at hd hhead
      obtain rfl : e = d := Option.some.inj hd
      exact hhead
  · rw [reach_of_not_letter (Bool.eq_false_iff.2 hc)]
    exact .symbol (Bool.eq_false_iff.2 hc)

/-- Behind a backslash, the scanner reads as much of a name as there are letters of ASCII, or else one character. -/
theorem mandatory_escaped (command : Text) (hne : name ≠ []) (hafter : ∀ c ∈ after.head?, c.isAlpha = false) :
    mandatory command ⟨'\\' :: name ++ after⟩ =
      (.ok ('\\' :: name.take (reach name)), ⟨name.drop (reach name) ++ after⟩) := by
  have htext : Text.trimLeft ('\\' :: name ++ after) = '\\' :: name ++ after :=
    Text.trimLeft_cons_of_not_isBlank (by decide) _
  refine mandatory_eq_ok_iff.2 (.inr ?_)
  rw [htext]
  refine ⟨by simp, ?_, isToken_escaped hne hafter⟩
  rw [List.cons_append, List.cons_append, ← List.append_assoc, List.take_append_drop]

theorem mandatory_escaped_of_le (command : Text) (hne : name ≠ []) (hle : name.length ≤ reach name)
    (hafter : ∀ c ∈ after.head?, c.isAlpha = false) :
    mandatory command ⟨'\\' :: name ++ after⟩ = (.ok ('\\' :: name), ⟨after⟩) := by
  rw [mandatory_escaped command hne hafter, List.take_of_length_le hle, List.drop_of_length_le hle, List.nil_append]

/-- A valid name behind a backslash, in front of any text that does not go on with a letter.  The scanner reads the
backslash with the letters of ASCII at the start of the name, or else with its first character.  So it reads the name
and nothing else if the name is a single character or all its letters are those of ASCII; it cuts a longer name with a
long s or a Kelvin sign in it. -/
theorem mandatory_controlSequence (command : Text) (hvalid : Name.isValid name = true)
    (hafter : ∀ c ∈ after.head?, c.isAlpha = false) :
    let reading := mandatory command ⟨'\\' :: name ++ after⟩
    reading = (.ok ('\\' :: name.take (reach name)), ⟨name.drop (reach name) ++ after⟩) ∧
      (reading = (.ok ('\\' :: name), ⟨after⟩) ↔ name.length = 1 ∨ '\u017F' ∉ name ∧ '\u212A' ∉ name) := by
  intro reading
  have hne : name ≠ [] := ne_nil_of_isValid hvalid
  have hread : reading = (.ok ('\\' :: name.take (reach name)), ⟨name.drop (reach name) ++ after⟩) :=
    mandatory_escaped command hne hafter
  refine ⟨hread, ?_⟩
  rw [← length_le_reach_iff_of_isValid hvalid]
  constructor
  · intro hwhole
    rw [hread] at hwhole
    have htake : name.take (reach name) = name := (List.cons.inj (Except.ok.inj (congrArg Prod.fst hwhole))).2
    have hlength := congrArg List.length htake
    rw [List.length_take] at hlength
    omega
  · exact fun hle => mandatory_escaped_of_le command hne hle hafter

/-- A run of letters, a character that is no letter, and a single long s, each in front of a digit. -/
theorem mandatory_controlSequence_names :
    let after : Text := "2{x}".toList
    (Name.isValid "section".toList = true ∧ Name.isValid ['@'] = true ∧ Name.isValid ['\u017F'] = true ∧
      ∀ c ∈ after.head?, c.isAlpha = false) ∧
    mandatory [] ⟨"\\section2{x}".toList⟩ = (.ok "\\section".toList, ⟨after⟩) ∧
      mandatory [] ⟨"\\@2{x}".toList⟩ = (.ok "\\@".toList, ⟨after⟩) ∧
      mandatory [] ⟨"\\\u017F2{x}".toList⟩ = (.ok "\\\u017F".toList, ⟨after⟩) := by
  intro after
  have hafter : ∀ c ∈ after.head?, c.isAlpha = false := by
    rintro c ⟨⟩
    rfl
  have hsection : Name.isValid "section".toList = true := by decide
  have hat : Name.isValid ['@'] = true := rfl
  have hlong : Name.isValid ['\u017F'] = true := rfl
  refine ⟨⟨hsection, hat, hlong, hafter⟩, ?_, ?_, ?_⟩
  · exact (mandatory_controlSequence [] hsection hafter).2.2 (.inr ⟨by decide, by decide⟩)
  · exact (mandatory_controlSequence [] hat hafter).2.2 (.inl rfl)
  · exact (mandatory_controlSequence [] hlong hafter).2.2 (.inl rfl)

end Scanner

/-- A checking session takes a name that ends with a long s, and a counter of this name is there; but the scanner stops
in front of the long s, and the test looks for another counter and takes the long s for its first branch. -/
theorem Session.not_mandatory_controlSequence :
    let _ : Memory := .upTo 4096
    let name : Text := ['k', '\u017F']
    let after : Text := "{y}{n}".toList
    let s := ((fresh .standard).runText "newcounter".toList (Braces.braced name)).2
    (Name.isValid name = true ∧ s.counters.contains name = true ∧ ∀ c ∈ after.head?, c.isAlpha = false) ∧
      Scanner.mandatory [] ⟨'\\' :: name ++ after⟩ ≠ (.ok ('\\' :: name), ⟨after⟩) ∧
      Scanner.mandatory [] ⟨'\\' :: name ++ after⟩ = (.ok "\\k".toList, ⟨'\u017F' :: after⟩) ∧
      (s.runText "ifdefcounter".toList ('\\' :: name ++ after)).1 = .ok (.branch false ['\u017F'] ['y']) := by
  have hread : Scanner.mandatory [] ⟨'\\' :: ['k', '\u017F'] ++ "{y}{n}".toList⟩ =
      (.ok "\\k".toList, ⟨'\u017F' :: "{y}{n}".toList⟩) := by rfl
  refine ⟨⟨by decide, by rfl, ?_⟩, ?_, hread, by rfl⟩
  · rintro c ⟨⟩
    rfl
  · rw [hread]
    exact fun h => nomatch h

end DocState
