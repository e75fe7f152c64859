import DocState.Argument.Scanner
import DocState.Proofs.Braces

/-!
# What a scanner reads

Behind the blanks, a mandatory argument is a group in braces or else a single token.

* `Scanner.group?_eq_some_iff`: the content of a group is a balanced text, up to the brace that closes it.
* `Scanner.IsToken token after`: a single token, in front of `after`.  `Scanner.token?_eq_some_iff`: this is what is read
  as a token.
* `Scanner.Begins text argument after`: the text begins with an argument, which `after` follows.
* `Scanner.mandatory_eq_ok_iff`, `Scanner.mandatory_eq_error_iff`: what is read and what is refused, both exactly.
* `Scanner.readings`: some arguments in a row.  `Scanner.readings_spaced`: groups are read back one after the other.
* `Scanner.mandatory_characterized`: all that a scanner does with the text in front of it.
-/

namespace DocState
namespace Scanner

open Braces

variable {command text content after : Text} {depth : Nat} {c : Char}

/-! ## Groups -/

theorem group?_escaped : group? '{' '}' depth ('\\' :: c :: text) =
    (group? '{' '}' depth text).map fun (content, after) => ('\\' :: c :: content, after) := rfl

theorem group?_open : group? '{' '}' depth ('{' :: text) =
    (group? '{' '}' (depth + 1) text).map fun (content, after) => ('{' :: content, after) := rfl

theorem group?_close_zero : group? '{' '}' 0 ('}' :: text) = some ([], text) := rfl

theorem group?_close : group? '{' '}' (depth + 1) ('}' :: text) =
    (group? '{' '}' depth text).map fun (content, after) => ('}' :: content, after) := rfl

theorem group?_plain (h : Plain c) : group? '{' '}' depth (c :: text) =
    (group? '{' '}' depth text).map fun (content, after) => (c :: content, after) := by
  rw [group?.eq_def]
  split
  · contradiction
  · rename_i heq
    exact absurd (List.cons.inj heq).1 h.1
  · rename_i heq
    obtain ⟨rfl, rfl⟩ := List.cons.inj heq
    rw [if_neg h.2.1, if_neg h.2.2]

/-- A group whose content closes what is open around it is found, whatever follows. -/
theorem group?_append (h : Closes depth content) :
    group? '{' '}' depth (content ++ '}' :: after) = some (content, after) := by
  induction content using byUnits generalizing depth with
  | nil =>
    cases depth with
    | zero => exact group?_close_zero
    | succ depth => exact absurd h not_closes_succ_nil
  | pending => exact absurd h not_closes_pending
  | escaped c content ih =>
    rw [List.cons_append, List.cons_append, group?_escaped, ih h]
    rfl
  | opening content ih =>
    rw [List.cons_append, group?_open, ih h]
    rfl
  | closing content ih =>
    cases depth with
    | zero => exact absurd h not_closes_zero_close
    | succ depth =>
      rw [List.cons_append, group?_close, ih (closes_close.1 h)]
      rfl
  | plain c content hplain ih =>
    rw [List.cons_append, group?_plain hplain, ih ((closes_plain hplain).1 h)]
    rfl

/-- The content of a group closes what is open around it. -/
theorem closes_of_group? (h : group? '{' '}' depth text = some (content, after)) :
    text = content ++ '}' :: after ∧ Closes depth content := by
  induction text using byUnits generalizing depth content with
  | nil => cases h
  | pending => cases h
  | escaped c text ih =>
    obtain ⟨⟨content, after⟩, hgroup, ⟨⟩⟩ := Option.map_eq_some_iff.1 (group?_escaped ▸ h)
    obtain ⟨rfl, hcloses⟩ := ih hgroup
    exact ⟨rfl, hcloses⟩
  | opening text ih =>
    obtain ⟨⟨content, after⟩, hgroup, ⟨⟩⟩ := Option.map_eq_some_iff.1 (group?_open ▸ h)
    obtain ⟨rfl, hcloses⟩ := ih hgroup
    exact ⟨rfl, hcloses⟩
  | closing text ih =>
    cases depth with
    | zero =>
      cases h
      exact ⟨rfl, rfl⟩
    | succ depth =>
      obtain ⟨⟨content, after⟩, hgroup, ⟨⟩⟩ := Option.map_eq_some_iff.1 (group?_close ▸ h)
      obtain ⟨rfl, hcloses⟩ := ih hgroup
      exact ⟨rfl, closes_close.2 hcloses⟩
  | plain c text hplain ih =>
    rw [group?_plain hplain] at h
    obtain ⟨⟨content, after⟩, hgroup, ⟨⟩⟩ := Option.map_eq_some_iff.1 h
    obtain ⟨rfl, hcloses⟩ := ih hgroup
    exact ⟨rfl, (closes_plain hplain).2 hcloses⟩

/-- The content of a group is what comes before the brace that closes it. -/
theorem group?_eq_some_iff :
    group? '{' '}' depth text = some (content, after) ↔ text = content ++ '}' :: after ∧ Closes depth content :=
  ⟨closes_of_group?, fun ⟨htext, hcloses⟩ => htext ▸ group?_append hcloses⟩

/-! ## Tokens -/

/-- A single token in front of `after`. -/
inductive IsToken : Text → Text → Prop
  | single {c : Char} {after : Text} (h : c ≠ '\\') : IsToken [c] after
  /-- A backslash takes all letters that follow it, if there is one. -/
  | word {letters after : Text} (nonempty : letters ≠ []) (letter : ∀ c ∈ letters, c.isAlpha = true)
      (longest : ∀ c ∈ after.head?, c.isAlpha = false) : IsToken ('\\' :: letters) after
  | symbol {c : Char} {after : Text} (h : c.isAlpha = false) : IsToken ['\\', c] after
  /-- A backslash stands alone at the end of a text only. -/
  | lone : IsToken ['\\'] []

theorem isToken_of_token? {token : Text} (h : token? text = some (token, after)) :
    text = token ++ after ∧ IsToken token after := by
  fun_cases token? text with
  | case1 => cases h
  | case2 c rest hletter =>
    rw [token?, if_pos hletter] at h
    cases h
    have hletters : ∀ c' ∈ c :: rest.takeWhile Char.isAlpha, c'.isAlpha = true :=
      List.forall_mem_cons.2 ⟨hletter, List.all_eq_true.1 List.all_takeWhile⟩
    refine ⟨?_, .word (List.cons_ne_nil _ _) hletters fun c' hc' => ?_⟩
    · rw [List.cons_append, List.cons_append, List.takeWhile_append_dropWhile]
    · have hhead := List.head?_dropWhile_not Char.isAlpha rest
      rw [Option.mem_def.1 hc'] at hhead
      exact hhead
  | case3 c rest hletter =>
    rw [token?, if_neg hletter] at h
    cases h
    exact ⟨rfl, .symbol (Bool.eq_false_iff.2 hletter)⟩
  | case4 c rest hpair =>
    rw [token?] at h
    · cases h
      by_cases hc : c = '\\'
      · subst hc
        cases after with
        | nil => exact ⟨rfl, .lone⟩
        | cons c after => exact absurd rfl (hpair c after rfl)
      · exact ⟨rfl, .single hc⟩
    · exact hpair

theorem token?_append {token : Text} (h : IsToken token after) : token? (token ++ after) = some (token, after) := by
  cases h with
  | single hc =>
    rw [List.singleton_append, token?]
    exact fun _ _ heq => absurd heq hc
  | @word letters _ nonempty letter longest =>
    obtain ⟨c, letters, rfl⟩ := List.exists_cons_of_ne_nil nonempty
    obtain ⟨hfirst, hlater⟩ := List.forall_mem_cons.1 letter
    have hrun : (letters ++ after).takeWhile Char.isAlpha = letters ∧
        (letters ++ after).dropWhile Char.isAlpha = after := by
      rw [List.takeWhile_append_of_pos hlater, List.dropWhile_append_of_pos hlater]
      cases after with
      | nil => simp
      | cons c' after => simp [longest c' rfl]
    rw [List.cons_append, List.cons_append, token?, if_pos hfirst, hrun.1, hrun.2]
  | symbol hc =>
    rw [List.cons_append, List.singleton_append, token?, if_neg (by simp [hc])]
  | lone => rfl

/-- A text begins with one token. -/
theorem token?_eq_some_iff {token : Text} :
    token? text = some (token, after) ↔ text = token ++ after ∧ IsToken token after :=
  ⟨isToken_of_token?, fun ⟨htext, htoken⟩ => htext ▸ token?_append htoken⟩

theorem token?_eq_none_iff : token? text = none ↔ text = [] := by
  fun_cases token? text <;> simp_all

/-! ## Mandatory arguments -/

/-- The text begins with an argument, which `after` follows: a balanced text in braces, or a token. -/
def Begins (text argument after : Text) : Prop :=
  text = braced argument ++ after ∧ IsBalanced argument ∨
    text.head? ≠ some '{' ∧ text = argument ++ after ∧ IsToken argument after

variable {s s' : Scanner} {argument : Text}

theorem mandatory_of_open {inside : Text} (h : s.unread.trimLeft = '{' :: inside) :
    mandatory command s =
      match group? '{' '}' 0 inside with
      | some (content, after) => (.ok content, ⟨after⟩)
      | none => (.error (.missingCloseBrace ('{' :: inside)), ⟨'{' :: inside⟩) := by
  unfold mandatory
  rw [h]
  rfl

theorem mandatory_of_head?_ne (h : s.unread.trimLeft.head? ≠ some '{') :
    mandatory command s =
      match token? s.unread.trimLeft with
      | some (token, after) => (.ok token, ⟨after⟩)
      | none => (.error (.missingArgument command), ⟨s.unread.trimLeft⟩) := by
  unfold mandatory
  simp only
  split
  · rename_i heq
    exact absurd (congrArg List.head? heq) h
  · rfl

theorem group_iff {inside : Text} :
    '{' :: inside = braced argument ++ after ∧ IsBalanced argument ↔
      group? '{' '}' 0 inside = some (argument, after) := by
  rw [group?_eq_some_iff, braced, List.cons_append, List.cons_append, List.cons_inj_right, List.append_assoc,
    List.singleton_append]
  rfl

theorem begins_of_open {inside : Text} :
    Begins ('{' :: inside) argument after ↔ group? '{' '}' 0 inside = some (argument, after) := by
  rw [Begins, group_iff]
  exact ⟨fun h => h.resolve_right fun hopen => hopen.1 rfl, .inl⟩

theorem begins_of_head?_ne (h : text.head? ≠ some '{') :
    Begins text argument after ↔ token? text = some (argument, after) := by
  rw [token?_eq_some_iff, Begins]
  refine ⟨fun hbegins => ?_, fun htoken => .inr ⟨h, htoken⟩⟩
  rcases hbegins with ⟨rfl, -⟩ | ⟨-, htoken⟩
  · exact absurd rfl h
  · exact htoken

/-- An argument is read exactly if the text begins with it behind the blanks, and what follows it stays unread. -/
theorem mandatory_eq_ok_iff :
    mandatory command s = (.ok argument, s') ↔ Begins s.unread.trimLeft argument s'.unread := by
  obtain ⟨after⟩ := s'
  by_cases hopen : s.unread.trimLeft.head? = some '{'
  · obtain ⟨inside, hinside⟩ := List.head?_eq_some_iff.1 hopen
    rw [mandatory_of_open hinside, hinside, begins_of_open]
    cases group? '{' '}' 0 inside <;> simp [Prod.ext_iff]
  · rw [mandatory_of_head?_ne hopen, begins_of_head?_ne hopen]
    cases token? s.unread.trimLeft <;> simp [Prod.ext_iff]

/-- Nothing is read exactly if the text begins with no argument behind the blanks: with a group that is not closed, or
with nothing at all.  The blanks have been read then. -/
theorem mandatory_eq_error_iff {e : Error} :
    mandatory command s = (.error e, s') ↔
      s' = ⟨s.unread.trimLeft⟩ ∧
        (e = .missingCloseBrace s.unread.trimLeft ∧ s.unread.trimLeft.head? = some '{' ∧
            (¬ ∃ argument after, s.unread.trimLeft = braced argument ++ after ∧ IsBalanced argument) ∨
          e = .missingArgument command ∧ s.unread.trimLeft = []) := by
  by_cases hopen : s.unread.trimLeft.head? = some '{'
  · obtain ⟨inside, hinside⟩ := List.head?_eq_some_iff.1 hopen
    rw [mandatory_of_open hinside, hinside]
    simp only [group_iff]
    cases hgroup : group? '{' '}' 0 inside with
    | none =>
      constructor
      · intro h
        cases h
        exact ⟨rfl, .inl ⟨rfl, rfl, fun ⟨_, _, hsome⟩ => nomatch hsome⟩⟩
      · rintro ⟨rfl, ⟨rfl, -, -⟩ | ⟨-, hend⟩⟩
        · rfl
        · cases hend
    | some found =>
      constructor
      · intro h
        cases h
      · rintro ⟨-, ⟨-, -, hopened⟩ | ⟨-, hend⟩⟩
        · exact absurd ⟨found.1, found.2, rfl⟩ hopened
        · cases hend
  · rw [mandatory_of_head?_ne hopen]
    cases htoken : token? s.unread.trimLeft with
    | none =>
      have hend := token?_eq_none_iff.1 htoken
      constructor
      · intro h
        cases h
        exact ⟨rfl, .inr ⟨rfl, hend⟩⟩
      · rintro ⟨rfl, ⟨-, hhead, -⟩ | ⟨rfl, -⟩⟩
        · exact absurd hhead hopen
        · rfl
    | some found =>
      constructor
      · intro h
        cases h
      · rintro ⟨-, ⟨-, hhead, -⟩ | ⟨-, hend⟩⟩
        · exact absurd hhead hopen
        · rw [hend] at htoken
          cases htoken

/-- Nothing but a group is read where a brace opens one. -/
theorem mandatory_open_iff {inside : Text} : mandatory command ⟨'{' :: inside⟩ = (.ok argument, ⟨after⟩) ↔
    '{' :: inside = braced argument ++ after ∧ IsBalanced argument := by
  rw [mandatory_eq_ok_iff]
  exact ⟨fun h => h.resolve_right fun htoken => htoken.1 rfl, .inl⟩

/-- A balanced text in braces is read, with blanks in front of it or without. -/
theorem mandatory_spaced {blanks : Text} (hblank : ∀ c ∈ blanks, isBlank c = true) (h : IsBalanced argument) :
    mandatory command ⟨blanks ++ (braced argument ++ after)⟩ = (.ok argument, ⟨after⟩) := by
  refine mandatory_eq_ok_iff.2 (.inl ⟨?_, h⟩)
  refine Text.trimLeft_append hblank fun c hc => ?_
  obtain rfl : '{' = c := Option.some.inj hc
  rfl

theorem mandatory_braced (h : IsBalanced argument) :
    mandatory command ⟨braced argument ++ after⟩ = (.ok argument, ⟨after⟩) :=
  mandatory_spaced (fun _ hc => absurd hc List.not_mem_nil) h

/-! ## Arguments in a row -/

/-- So many mandatory arguments, one after the other, and what is unread behind them. -/
def readings (command : Text) : Nat → Scanner → Except Error (List Text) × Scanner
  | 0, s => (.ok [], s)
  | n + 1, s =>
    match mandatory command s with
    | (.ok argument, s') =>
      match readings command n s' with
      | (.ok arguments, s'') => (.ok (argument :: arguments), s'')
      | (.error e, s'') => (.error e, s'')
    | (.error e, s') => (.error e, s')

/-- Arguments in braces, each behind some blanks. -/
def spaced (written : List (Text × Text)) : Text :=
  written.flatMap fun (blanks, argument) => blanks ++ braced argument

theorem readings_succ_eq_ok_iff {n : Nat} {s s'' : Scanner} {argument : Text} {arguments : List Text} :
    readings command (n + 1) s = (.ok (argument :: arguments), s'') ↔
      ∃ s', mandatory command s = (.ok argument, s') ∧ readings command n s' = (.ok arguments, s'') := by
  rw [readings]
  rcases mandatory command s with ⟨_ | first, s'⟩
  · simp
  · rcases hlater : readings command n s' with ⟨_ | later, last⟩
    · simp [hlater]
    · simp [hlater, and_assoc]

/-- Arguments in braces are read back one after the other, with blanks between them or without, up to what follows. -/
theorem readings_spaced {written : List (Text × Text)}
    (h : ∀ p ∈ written, (∀ c ∈ p.1, isBlank c = true) ∧ IsBalanced p.2) (after : Text) :
    readings command written.length ⟨spaced written ++ after⟩ = (.ok (written.map (·.2)), ⟨after⟩) := by
  induction written with
  | nil => rfl
  | cons p written ih =>
    obtain ⟨⟨hblank, hbalanced⟩, hlater⟩ := List.forall_mem_cons.1 h
    have htext : spaced (p :: written) ++ after = p.1 ++ (braced p.2 ++ (spaced written ++ after)) := by simp [spaced]
    rw [htext, List.length_cons, List.map_cons]
    exact readings_succ_eq_ok_iff.2 ⟨_, mandatory_spaced hblank hbalanced, ih hlater⟩

/-- What a scanner reads of any text.  Behind the blanks stands a balanced text in braces or a token, and it is read and
what follows it is left; or a group that is not closed, or nothing, which is refused with the blanks read.  So any number
of arguments in braces are read back in order, with blanks between them and with any text behind them. -/
theorem mandatory_characterized (command : Text) (s : Scanner) :
    let rest := s.unread.trimLeft
    (∀ argument after, mandatory command s = (.ok argument, ⟨after⟩) ↔
      rest = braced argument ++ after ∧ IsBalanced argument ∨
        rest.head? ≠ some '{' ∧ rest = argument ++ after ∧ IsToken argument after) ∧
    (∀ e s', mandatory command s = (.error e, s') ↔
      s' = ⟨rest⟩ ∧
        (e = .missingCloseBrace rest ∧ rest.head? = some '{' ∧
            (¬ ∃ argument after, rest = braced argument ++ after ∧ IsBalanced argument) ∨
          e = .missingArgument command ∧ rest = [])) ∧
    ∀ (written : List (Text × Text)) (after : Text),
      (∀ p ∈ written, (∀ c ∈ p.1, isBlank c = true) ∧ IsBalanced p.2) → s.unread = spaced written ++ after →
        readings command written.length s = (.ok (written.map (·.2)), ⟨after⟩) := by
  refine ⟨fun _ _ => mandatory_eq_ok_iff, fun _ _ => mandatory_eq_error_iff, fun written after h hunread => ?_⟩
  obtain ⟨unread⟩ := s
  obtain rfl : unread = spaced written ++ after := hunread
  exact readings_spaced h after

/-- A group with a brace that does not count and what stands behind it, a group that is never closed, and two groups in
front of a third that is not asked for. -/
theorem mandatory_characterized_groups :
    let command := "value".toList
    (∃ after, mandatory command ⟨' ' :: (braced "a{b}\\\x7d".toList ++ "\\cd1".toList)⟩ =
        (.ok "a{b}\\\x7d".toList, ⟨after⟩) ∧
      mandatory command ⟨after⟩ = (.ok "\\cd".toList, ⟨['1']⟩)) ∧
    mandatory command ⟨" \x7ba{b}".toList⟩ = (.error (.missingCloseBrace "\x7ba{b}".toList), ⟨"\x7ba{b}".toList⟩) ∧
    readings command 2 ⟨" {{x}} {}\x7by".toList⟩ = (.ok ["{x}".toList, []], ⟨"\x7by".toList⟩) := by
  intro command
  have hletters : ∀ c ∈ "cd".toList, c.isAlpha = true := List.all_eq_true.1 rfl
  have hend : ∀ c ∈ ['1'].head?, c.isAlpha = false := by
    rintro c ⟨⟩
    rfl
  have hopened : ¬ ∃ argument after, "\x7ba{b}".toList = braced argument ++ after ∧ IsBalanced argument := by
    rintro ⟨argument, after, hgroup⟩
    have hnone : group? '{' '}' 0 "a{b}".toList = none := by rfl
    cases hnone.symm.trans (group_iff.1 hgroup)
  have hblank : ∀ c ∈ [' '], isBlank c = true := List.all_eq_true.1 rfl
  have hspaced : ∀ p ∈ [([' '], "{x}".toList), ([' '], [])], (∀ c ∈ p.1, isBlank c = true) ∧ IsBalanced p.2 :=
    List.forall_mem_cons.2 ⟨⟨hblank, by decide⟩, List.forall_mem_singleton.2 ⟨hblank, by decide⟩⟩
  refine ⟨⟨"\\cd1".toList, ?_, ?_⟩, ?_, ?_⟩
  · exact ((mandatory_characterized command _).1 _ _).2 (.inl ⟨by rfl, by decide⟩)
  · exact ((mandatory_characterized command _).1 _ _).2 (.inr ⟨by decide, by rfl, .word (by decide) hletters hend⟩)
  · exact ((mandatory_characterized command _).2.1 _ _).2 ⟨by rfl, .inl ⟨by rfl, by rfl, hopened⟩⟩
  · exact (mandatory_characterized command _).2.2 _ _ hspaced (by rfl)

end Scanner
end DocState
