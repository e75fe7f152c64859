import DocState.Proofs.Readback.Scanning
import DocState.Proofs.Separated.Division

/-!
# A separated text and the same text in braces

One reader of braces divides a separated text, and another one reads an argument in braces.

* `Scanner.braced_eq_append_iff`: the groups that can begin a text in braces.
* `Scanner.mandatory_braced_eq_ok_iff`, `Scanner.exists_mandatory_braced_rest_iff`,
  `Scanner.exists_mandatory_braced_eq_missing_iff`: a text in braces is read as a whole, or up to a brace in it, or not
  at all.
* `Separated.items_agree_with_scanner`: in the same cases the text is divided, or refused for a brace that closes
  nothing, or refused for a group that is left open.
-/

namespace DocState

open Braces

/-! ## A text in braces as an argument -/

namespace Scanner

variable {command t argument after : Text}

/-- A group at the start of a text in braces ends with the last brace, or with one in the text. -/
theorem braced_eq_append_iff : braced t = braced argument ++ after ↔
    t = argument ∧ after = [] ∨ ∃ rest, t = argument ++ '}' :: rest ∧ after = rest ++ ['}'] := by
  have hinside : braced t = braced argument ++ after ↔ t ++ ['}'] = argument ++ '}' :: after := by
    rw [braced, braced, List.cons_append, List.cons_append, List.cons_append, List.cons_inj_right, List.append_assoc,
      List.singleton_append]
  rw [hinside]
  constructor
  · intro h
    obtain ⟨more, rfl, hclose⟩ | ⟨more, rfl, hclose⟩ := List.append_eq_append_iff.1 h
    · cases more with
      | nil =>
        cases hclose
        exact .inl ⟨(List.append_nil t).symm, rfl⟩
      | cons c more => simp at hclose
    · cases more with
      | nil =>
        cases hclose
        exact .inl ⟨List.append_nil argument, rfl⟩
      | cons c rest =>
        obtain ⟨rfl, rfl⟩ := List.cons.inj hclose
        exact .inr ⟨rest, rfl, rfl⟩
  · rintro (⟨rfl, rfl⟩ | ⟨rest, rfl, rfl⟩)
    · rfl
    · rw [List.append_assoc, List.cons_append]

theorem mandatory_braced_iff : mandatory command ⟨braced t⟩ = (.ok argument, ⟨after⟩) ↔
    braced t = braced argument ++ after ∧ IsBalanced argument :=
  mandatory_open_iff

/-- A text in braces is read as a whole exactly if it is balanced. -/
theorem mandatory_braced_eq_ok_iff : mandatory command ⟨braced t⟩ = (.ok t, ⟨[]⟩) ↔ IsBalanced t := by
  rw [mandatory_braced_iff, List.append_nil]
  exact and_iff_right rfl

/-- Something is left behind the argument exactly if a brace in the text closes more than the text opens. -/
theorem exists_mandatory_braced_rest_iff :
    (∃ argument after, mandatory command ⟨braced t⟩ = (.ok argument, ⟨after⟩) ∧ after ≠ []) ↔
      Standing.ground.walk t = none := by
  simp only [mandatory_braced_iff, braced_eq_append_iff, Standing.walk_eq_none_iff]
  constructor
  · rintro ⟨argument, after, ⟨⟨-, rfl⟩ | ⟨rest, rfl, -⟩, hbalanced⟩, hafter⟩
    · exact absurd rfl hafter
    · exact ⟨argument, rest, rfl, hbalanced⟩
  · rintro ⟨argument, rest, rfl, hbalanced⟩
    exact ⟨argument, _, ⟨.inr ⟨rest, rfl, rfl⟩, hbalanced⟩, List.concat_ne_nil _ _⟩

/-- A group that begins a text in braces is all of it, or leaves something. -/
theorem exists_group_iff : (∃ argument after, braced t = braced argument ++ after ∧ IsBalanced argument) ↔
    IsBalanced t ∨ Standing.ground.walk t = none := by
  simp only [braced_eq_append_iff, Standing.walk_eq_none_iff]
  constructor
  · rintro ⟨argument, after, ⟨rfl, -⟩ | ⟨rest, rfl, -⟩, hbalanced⟩
    · exact .inl hbalanced
    · exact .inr ⟨argument, rest, rfl, hbalanced⟩
  · rintro (hbalanced | ⟨argument, rest, rfl, hbalanced⟩)
    · exact ⟨t, [], .inl ⟨rfl, rfl⟩, hbalanced⟩
    · exact ⟨argument, _, .inr ⟨rest, rfl, rfl⟩, hbalanced⟩

/-- The closing brace is missed exactly if the text leaves a group open, or makes the brace behind it inert. -/
theorem exists_mandatory_braced_eq_missing_iff :
    (∃ shown s', mandatory command ⟨braced t⟩ = (.error (.missingCloseBrace shown), s')) ↔
      ∃ q, Standing.ground.walk t = some q ∧ q ≠ .ground := by
  have hunopened : (∃ q, Standing.ground.walk t = some q ∧ q ≠ .ground) ↔
      ¬ ∃ argument after, braced t = braced argument ++ after ∧ IsBalanced argument := by
    rw [exists_group_iff, show IsBalanced t ↔ Standing.ground.walk t = some .ground from Iff.rfl]
    cases Standing.ground.walk t <;> simp
  rw [hunopened]
  simp only [mandatory_eq_error_iff]
  constructor
  · rintro ⟨shown, s', -, ⟨-, -, hgroup⟩ | ⟨hmissing, -⟩⟩
    · exact hgroup
    · cases hmissing
  · exact fun hgroup => ⟨braced t, ⟨braced t⟩, rfl, .inl ⟨rfl, rfl, hgroup⟩⟩

end Scanner

/-! ## The two readers -/

namespace Separated

variable {separator t : Text}

/-- A text that does not end in a backslash, and a separator that is no part of the brace structure.  The text is
divided exactly if a scanner reads the whole of it in braces; a brace closes nothing exactly if the scanner leaves
something behind its argument; and a group is left open exactly if the scanner misses the brace that closes its
argument.  So any other separator makes no difference to whether the text is refused, and for what. -/
theorem items_agree_with_scanner (command : Text) (ht : ¬ EndsPending t) (hsep : ∀ c ∈ separator, Plain c) :
    ((∃ found, items separator t = .ok found) ↔ Scanner.mandatory command ⟨braced t⟩ = (.ok t, ⟨[]⟩)) ∧
    (∀ e, items separator t = .error e ↔
      e = .extraCloseBrace t ∧
          (∃ argument after, Scanner.mandatory command ⟨braced t⟩ = (.ok argument, ⟨after⟩) ∧ after ≠ []) ∨
        e = .missingCloseBrace t ∧
          ∃ shown s', Scanner.mandatory command ⟨braced t⟩ = (.error (.missingCloseBrace shown), s')) ∧
    ∀ other e, (∀ c ∈ other, Plain c) → (items separator t = .error e ↔ items other t = .error e) := by
  -- no backslash is pending, so only the depth tells the end of the text from the ground
  have hground {q : Standing} (hwalk : Standing.ground.walk t = some q) : q = .ground ↔ q.depth = 0 := by
    have hescaped : q.escaped = false := Bool.eq_false_iff.2 fun h => ht ((escaped_walk hwalk).1 h)
    obtain ⟨depth, escaped⟩ := q
    simp_all [Standing.ground]
  refine ⟨?_, fun e => ?_, fun other e hother => ?_⟩
  · rw [exists_items_eq_ok_iff hsep, Scanner.mandatory_braced_eq_ok_iff]
    constructor
    · rintro ⟨q, hwalk, hdepth⟩
      rwa [(hground hwalk).2 hdepth] at hwalk
    · exact fun hbalanced => ⟨.ground, hbalanced, rfl⟩
  · rw [items_eq_error_iff hsep, Scanner.exists_mandatory_braced_rest_iff,
      Scanner.exists_mandatory_braced_eq_missing_iff]
    refine or_congr_right (and_congr_right fun _ => exists_congr fun q => and_congr_right fun hwalk => ?_)
    exact (hground hwalk).symm.not
  · rw [items_eq_error_iff hsep, items_eq_error_iff hother]

/-- A text with an inert brace, one with a brace that closes nothing, whatever separates its items, and one that leaves
a group open. -/
theorem items_agree_with_scanner_texts :
    (∃ found, items ", ".toList "a\\\x7d, {b, c}".toList = .ok found) ∧
    items [','] "a\x7d, b".toList = .error (.extraCloseBrace "a\x7d, b".toList) ∧
    items "; ".toList "a\x7d, b".toList = .error (.extraCloseBrace "a\x7d, b".toList) ∧
    items [','] "\x7ba, b\\\x7d".toList = .error (.missingCloseBrace "\x7ba, b\\\x7d".toList) := by
  have hcomma : ∀ c ∈ [','], Plain c := by simp [Plain]
  have hspaced : ∀ c ∈ ", ".toList, Plain c := by simp [Plain]
  have hsemicolon : ∀ c ∈ "; ".toList, Plain c := by simp [Plain]
  have hextra : items [','] "a\x7d, b".toList = .error (.extraCloseBrace "a\x7d, b".toList) :=
    ((items_agree_with_scanner [] (by decide) hcomma).2.1 _).2
      (.inl ⟨rfl, ['a'], ", b\x7d".toList, by rfl, by decide⟩)
  refine ⟨?_, hextra, ?_, ?_⟩
  · exact (items_agree_with_scanner [] (by decide) hspaced).1.2 (by rfl)
  · exact ((items_agree_with_scanner [] (by decide) hcomma).2.2 _ _ hsemicolon).1 hextra
  · exact ((items_agree_with_scanner [] (by decide) hcomma).2.1 _).2 (.inr ⟨rfl, _, _, by rfl⟩)

end Separated
end DocState
