import DocState.Separated
import DocState.Proofs.Braces

/-!
# A separated text divides at its unprotected separators

* `Separated.content`: a piece without the braces of its outermost groups.
* `Separated.Free`: no unprotected separator stands in a piece.
* `Separated.Divided`: pieces, and between them separators with the blanks behind them; the items are the contents
  of the pieces.
* `scan_eq_ok_iff`: the items that are read from a text are those into which it divides, however many groups are open
  in front of it.  `items_eq_ok_iff`: so it is for a whole text.
* `outcome_scan`, `items_eq_error_iff`: whether a text is refused, and why, is decided by its braces alone, unless
  separators have a part in them.
-/

namespace DocState
namespace Separated

open Braces

/-! ## Definitions -/

/-- Whether a character is a brace of an outermost group. -/
def isOuter (p : Standing) (c : Char) : Bool :=
  !p.escaped && (c == '{' && p.depth == 0 || c == '}' && p.depth == 1)

/-- What an item keeps of a character. -/
def kept (p : Standing) (c : Char) : Text := if isOuter p c then [] else [c]

/-- The text without the braces of its outermost groups, read from `p`. -/
def content (p : Standing) : Text → Text
  | [] => []
  | c :: rest => kept p c ++ content ((p.read c).getD p) rest

/-- The separator begins the text. The empty separator begins none. -/
def Begins (separator text : Text) : Prop := separator ≠ [] ∧ separator <+: text

/-- No separator begins inside the piece where no group is open and the character is not inert, even if it ends in
`rest`, which follows the piece. -/
def Free (separator : Text) (p : Standing) (piece rest : Text) : Prop :=
  ∀ n < piece.length, p.walk (piece.take n) = some .ground → ¬ Begins separator (piece.drop n ++ rest)

/-- A text, read from `p`, with the items into which it divides. -/
inductive Divided (separator : Text) : Standing → Text → List Text → Prop
  /-- The last piece may end in a backslash. -/
  | last {p : Standing} {piece : Text} {escaped : Bool} (closed : p.walk piece = some ⟨0, escaped⟩)
      (free : Free separator p piece []) : Divided separator p piece [content p piece]
  /-- All blanks behind a separator belong to it. -/
  | split {p : Standing} {text piece blanks rest : Text} {items : List Text} (nonempty : separator ≠ [])
      (parts : text = piece ++ (separator ++ (blanks ++ rest))) (closed : p.walk piece = some .ground)
      (free : Free separator p piece (separator ++ (blanks ++ rest)))
      (blank : ∀ c ∈ blanks, isBlank c = true) (whole : ∀ c ∈ rest.head?, isBlank c = false)
      (more : Divided separator .ground rest items) : Divided separator p text (content p piece :: items)

instance (separator text : Text) : Decidable (Begins separator text) := inferInstanceAs (Decidable (_ ∧ _))

instance (separator : Text) (p : Standing) (piece rest : Text) : Decidable (Free separator p piece rest) :=
  inferInstanceAs (Decidable (∀ n < piece.length, _ → _))

/-! ## Separators -/

variable {separator text piece rest : Text} {p p' : Standing} {c : Char} {found : List Text}

theorem startsWith_iff : startsWith separator text = true ↔ Begins separator text := by
  simp [startsWith, Begins]

/-! ## Pieces character by character -/

theorem free_nil : Free separator p [] rest := fun _ hn => absurd hn (Nat.not_lt_zero _)

theorem free_cons (hread : p.read c = some p') :
    Free separator p (c :: piece) rest ↔
      (p = .ground → ¬ Begins separator (c :: piece ++ rest)) ∧ Free separator p' piece rest := by
  constructor
  · intro h
    refine ⟨fun hp => h 0 (Nat.succ_pos _) (by rw [hp]; rfl), fun n hn hwalk => ?_⟩
    refine h (n + 1) (Nat.succ_lt_succ hn) ?_
    rw [List.take_succ_cons, Standing.walk_cons, hread]
    exact hwalk
  · rintro ⟨hfirst, hlater⟩ n hn hwalk
    cases n with
    | zero => exact hfirst (Option.some.inj hwalk)
    | succ n =>
      rw [List.take_succ_cons, Standing.walk_cons, hread] at hwalk
      exact hlater n (Nat.lt_of_succ_lt_succ hn) hwalk

theorem kept_escaped {depth : Nat} : kept ⟨depth, true⟩ c = [c] := rfl

theorem kept_backslash {depth : Nat} : kept ⟨depth, false⟩ '\\' = ['\\'] := rfl

theorem kept_open {depth : Nat} : kept ⟨depth, false⟩ '{' = if depth = 0 then [] else ['{'] := by
  simp [kept, isOuter]

theorem kept_close {depth : Nat} : kept ⟨depth, false⟩ '}' = if depth = 1 then [] else ['}'] := by
  simp [kept, isOuter]

theorem kept_plain {depth : Nat} (h : Plain c) : kept ⟨depth, false⟩ c = [c] := by
  simp [kept, isOuter, h.2.1, h.2.2]

theorem content_cons (hread : p.read c = some p') : content p (c :: piece) = kept p c ++ content p' piece := by
  rw [content, hread]
  rfl

/-! ## Division character by character -/

theorem divided_nil : Divided separator p [] found ↔ p.depth = 0 ∧ found = [[]] := by
  constructor
  · intro h
    cases h with
    | last closed _ => exact ⟨congrArg Standing.depth (Option.some.inj closed), rfl⟩
    | split nonempty parts _ _ _ _ _ => simp_all
  · rintro ⟨hdepth, rfl⟩
    have hwalk : p.walk [] = some ⟨0, p.escaped⟩ := by rw [← hdepth]; rfl
    exact .last hwalk free_nil

/-- A separator outside all groups ends an empty piece. -/
theorem divided_of_begins (h : Begins separator text) :
    Divided separator .ground text found ↔
      ∃ items, Divided separator .ground (afterSeparator separator text) items ∧ found = [] :: items := by
  obtain ⟨hne, rest, rfl⟩ := h
  have hbegins : Begins separator (separator ++ rest) := ⟨hne, List.prefix_append _ _⟩
  have hpos : 0 < separator.length := List.length_pos_iff.2 hne
  constructor
  · intro hdiv
    cases hdiv with
    | last _ free =>
      have hnot := free 0 (by rw [List.length_append]; omega) rfl
      rw [List.drop_zero, List.append_nil] at hnot
      exact absurd hbegins hnot
    | @split _ _ piece blanks rest' items _ parts closed free blank whole more =>
      cases piece with
      | nil =>
        obtain rfl : rest = blanks ++ rest' := List.append_cancel_left parts
        refine ⟨items, ?_, rfl⟩
        rw [afterSeparator, List.drop_left, Text.trimLeft_append blank whole]
        exact more
      | cons c piece =>
        have hnot := free 0 (Nat.succ_pos _) rfl
        rw [List.drop_zero, ← parts] at hnot
        exact absurd hbegins hnot
  · rintro ⟨items, hdiv, rfl⟩
    rw [afterSeparator, List.drop_left] at hdiv
    have hparts : separator ++ rest = [] ++ (separator ++ (rest.takeWhile isBlank ++ Text.trimLeft rest)) := by
      rw [Text.trimLeft, List.takeWhile_append_dropWhile, List.nil_append]
    have hblank : ∀ c ∈ rest.takeWhile isBlank, isBlank c = true := List.all_eq_true.1 List.all_takeWhile
    exact .split hne hparts rfl free_nil hblank (Text.head?_trimLeft rest) hdiv

/-- Any other character belongs to the first piece. -/
theorem divided_cons (h : p = .ground → ¬ Begins separator (c :: rest)) :
    Divided separator p (c :: rest) found ↔
      ∃ p' later, p.read c = some p' ∧ Divided separator p' rest later ∧ found = prepend (kept p c) later := by
  constructor
  · intro hdiv
    cases hdiv with
    | last closed free =>
      obtain ⟨p', hread, hclosed⟩ := Option.bind_eq_some_iff.1 (Standing.walk_cons ▸ closed)
      rw [content_cons hread]
      exact ⟨p', _, hread, .last hclosed ((free_cons hread).1 free).2, rfl⟩
    | @split _ _ piece blanks rest' items nonempty parts closed free blank whole more =>
      cases piece with
      | nil =>
        have hbegins : Begins separator (c :: rest) := ⟨nonempty, by rw [parts]; exact List.prefix_append _ _⟩
        exact absurd hbegins (h (Option.some.inj closed))
      | cons c' piece =>
        obtain ⟨rfl, rfl⟩ := List.cons_eq_cons.1 parts
        obtain ⟨p', hread, hclosed⟩ := Option.bind_eq_some_iff.1 (Standing.walk_cons ▸ closed)
        rw [content_cons hread]
        exact ⟨p', _, hread, .split nonempty rfl hclosed ((free_cons hread).1 free).2 blank whole more, rfl⟩
  · rintro ⟨p', later, hread, hdiv, rfl⟩
    cases hdiv with
    | last closed free =>
      rw [prepend, ← content_cons hread]
      refine .last (by rw [Standing.walk_cons, hread]; exact closed) ((free_cons hread).2 ⟨fun hp => ?_, free⟩)
      rw [List.append_nil]
      exact h hp
    | split nonempty parts closed free blank whole more =>
      subst parts
      rw [prepend, ← content_cons hread]
      refine .split nonempty rfl (by rw [Standing.walk_cons, hread]; exact closed) ?_ blank whole more
      exact (free_cons hread).2 ⟨fun hp => h hp, free⟩

/-! ## Reading -/

theorem map_eq_ok_iff {ε α β : Type} {f : α → β} {x : Except ε α} {b : β} :
    f <$> x = .ok b ↔ ∃ a, x = .ok a ∧ b = f a := by
  cases x with
  | error e => exact ⟨fun h => (nomatch h), fun ⟨_, h, _⟩ => (nomatch h)⟩
  | ok a => exact ⟨fun h => ⟨a, rfl, (Except.ok.inj h).symm⟩, by rintro ⟨_, ⟨⟩, rfl⟩; rfl⟩

theorem prepend_prepend (s t : Text) (found : List Text) : prepend s (prepend t found) = prepend (s ++ t) found := by
  cases found <;> simp [prepend]

theorem not_begins_of_not_startsWith {depth : Nat} (h : ¬ (depth = 0 ∧ startsWith separator text = true))
    (hground : (⟨depth, false⟩ : Standing) = .ground) : ¬ Begins separator text := fun hbegins =>
  h ⟨congrArg Standing.depth hground, startsWith_iff.2 hbegins⟩

theorem divided_read (h : p = .ground → ¬ Begins separator (c :: rest)) (hread : p.read c = some p') :
    Divided separator p (c :: rest) found ↔
      ∃ later, Divided separator p' rest later ∧ found = prepend (kept p c) later := by
  rw [divided_cons h]
  simp [hread]

/-- A backslash and the character behind it belong to the first piece. -/
theorem divided_escaped {depth : Nat}
    (h : (⟨depth, false⟩ : Standing) = .ground → ¬ Begins separator ('\\' :: c :: rest)) :
    Divided separator ⟨depth, false⟩ ('\\' :: c :: rest) found ↔
      ∃ later, Divided separator ⟨depth, false⟩ rest later ∧ found = prepend ['\\', c] later := by
  have hinert : (⟨depth, true⟩ : Standing) = .ground → ¬ Begins separator (c :: rest) := fun h => by cases h
  rw [divided_read h Standing.read_backslash, kept_backslash]
  simp only [divided_read hinert Standing.read_escaped, kept_escaped]
  constructor
  · rintro ⟨_, ⟨later, hdiv, rfl⟩, rfl⟩
    exact ⟨later, hdiv, prepend_prepend _ _ _⟩
  · rintro ⟨later, hdiv, rfl⟩
    exact ⟨_, ⟨later, hdiv, rfl⟩, (prepend_prepend ['\\'] [c] later).symm⟩

/-- The items that are read from a text behind `depth` open groups are those into which it divides. -/
theorem scan_eq_ok_iff {depth : Nat} :
    scan separator depth text = .ok found ↔ Divided separator ⟨depth, false⟩ text found := by
  fun_induction scan separator depth text generalizing found with
  | case1 => simp [divided_nil, eq_comm]
  | case2 depth hdepth => simp [divided_nil, hdepth]
  | case3 depth c rest h ih =>
    obtain ⟨rfl, hstarts⟩ := h
    rw [map_eq_ok_iff]
    refine Iff.trans ?_ (divided_of_begins (startsWith_iff.1 hstarts)).symm
    exact exists_congr fun later => and_congr_left' ih
  | case4 depth rest h ih =>
    rw [map_eq_ok_iff]
    cases rest with
    | nil =>
      -- a backslash at the end makes nothing inert, and the empty text divides behind it as in front of it
      rw [divided_read (not_begins_of_not_startsWith h) Standing.read_backslash]
      refine exists_congr fun later => and_congr_left' (ih.trans ?_)
      rw [divided_nil, List.drop_nil, divided_nil]
    | cons c rest =>
      rw [divided_escaped (not_begins_of_not_startsWith h)]
      exact exists_congr fun later => and_congr_left' ih
  | case5 depth rest h _ ih =>
    rw [map_eq_ok_iff, divided_read (not_begins_of_not_startsWith h) Standing.read_open, kept_open]
    exact exists_congr fun later => and_congr_left' ih
  | case6 rest _ _ h =>
    rw [divided_cons (not_begins_of_not_startsWith h)]
    simp [Standing.read_close_zero]
  | case7 depth rest hdepth h _ _ ih =>
    obtain ⟨depth, rfl⟩ := Nat.exists_eq_succ_of_ne_zero hdepth
    rw [map_eq_ok_iff, divided_read (not_begins_of_not_startsWith h) Standing.read_close, kept_close]
    exact exists_congr fun later => and_congr_left' ih
  | case8 depth c rest h hbackslash hopen hclose ih =>
    have hplain : Plain c := ⟨hbackslash, hopen, hclose⟩
    rw [map_eq_ok_iff, divided_read (not_begins_of_not_startsWith h) (Standing.read_plain hplain), kept_plain hplain]
    exact exists_congr fun later => and_congr_left' ih

/-! ## Balanced items -/

/-- Inside the outermost groups. -/
def within (p : Standing) : Standing := ⟨p.depth - 1, p.escaped⟩

theorem walk_kept (hread : p.read c = some p') : (within p).walk (kept p c) = some (within p') := by
  obtain ⟨depth, escaped⟩ := p
  cases escaped with
  | true =>
    cases hread
    rfl
  | false =>
    rcases eq_or_plain c with rfl | rfl | rfl | hplain
    · cases hread
      rfl
    · cases hread
      rw [kept_open]
      cases depth <;> rfl
    · rw [kept_close]
      -- the last group that is open leaves no brace, and a group inside it does
      match depth with
      | 0 => cases hread
      | 1 =>
        cases hread
        rfl
      | depth + 2 =>
        cases hread
        rfl
    · rw [Standing.read_plain hplain] at hread
      cases hread
      rw [kept_plain hplain]
      exact Standing.walk_plain hplain

/-- Without the braces of its outermost groups, a piece is read as it is read inside such a group. -/
theorem walk_content {q : Standing} (h : p.walk piece = some q) :
    (within p).walk (content p piece) = some (within q) := by
  induction piece generalizing p with
  | nil =>
    cases h
    rfl
  | cons c piece ih =>
    obtain ⟨p', hread, hrest⟩ := Option.bind_eq_some_iff.1 (Standing.walk_cons ▸ h)
    rw [content_cons hread, Standing.walk_append, walk_kept hread]
    exact ih hrest

/-- If separators are no part of the brace structure, a balanced text divides into balanced items. -/
theorem Divided.isBalanced (hdiv : Divided separator p text found) (hp : p = .ground)
    (hsep : ∀ c ∈ separator, Plain c) (ht : IsBalanced text) : ∀ item ∈ found, IsBalanced item := by
  induction hdiv with
  | last closed free =>
    subst hp
    intro item hitem
    obtain rfl := List.mem_singleton.1 hitem
    exact walk_content ht
  | @split p text piece blanks rest items nonempty parts closed free blank whole more ih =>
    subst hp
    subst parts
    -- the separator and its blanks are plain, so behind them the reader stands where the piece has left it
    have hrest : IsBalanced rest := by
      rw [IsBalanced, Closes, Standing.walk_append] at ht
      rw [show Standing.walk ⟨0, false⟩ piece = some ⟨0, false⟩ from closed] at ht
      rw [Option.bind_some, Standing.walk_append_of_plain hsep,
        Standing.walk_append_of_plain fun c hc => plain_of_isBlank (blank c hc)] at ht
      exact ht
    intro item hitem
    rcases List.mem_cons.1 hitem with rfl | hitem
    · exact walk_content closed
    · exact ih rfl hrest item hitem

/-! ## Refused texts -/

/-- How the scan of a text comes out whose reader comes to stand so: some brace closes no group, some group is left
open, or neither. -/
def verdict : Option Standing → Except Imbalance Unit
  | none => .error .extraClose
  | some p => if p.depth = 0 then .ok () else .error .missingClose

/-- Whether there are items, without what they are. -/
def outcome (found : Except Imbalance (List Text)) : Except Imbalance Unit := found.map fun _ => ()

theorem outcome_map {f : List Text → List Text} {found : Except Imbalance (List Text)} :
    outcome (f <$> found) = outcome found := by
  cases found <;> rfl

theorem outcome_eq_error_iff {found : Except Imbalance (List Text)} {e : Imbalance} :
    outcome found = .error e ↔ found = .error e := by
  cases found <;> simp [outcome, Except.map]

theorem outcome_eq_ok_iff {found : Except Imbalance (List Text)} :
    outcome found = .ok () ↔ ∃ items, found = .ok items := by
  cases found <;> simp [outcome, Except.map]

theorem verdict_eq_extraClose_iff {reached : Option Standing} :
    verdict reached = .error .extraClose ↔ reached = none := by
  fun_cases verdict reached <;> simp_all

theorem verdict_eq_missingClose_iff {reached : Option Standing} :
    verdict reached = .error .missingClose ↔ ∃ q, reached = some q ∧ q.depth ≠ 0 := by
  fun_cases verdict reached <;> simp_all

theorem verdict_eq_ok_iff {reached : Option Standing} :
    verdict reached = .ok () ↔ ∃ q, reached = some q ∧ q.depth = 0 := by
  fun_cases verdict reached <;> simp_all

theorem walk_afterSeparator {depth : Nat} (hsep : ∀ c ∈ separator, Plain c) (hbegins : Begins separator text) :
    Standing.walk ⟨depth, false⟩ (afterSeparator separator text) = Standing.walk ⟨depth, false⟩ text := by
  obtain ⟨-, rest, rfl⟩ := hbegins
  have hblanks : ∀ c ∈ rest.takeWhile isBlank, Plain c := fun c hc =>
    plain_of_isBlank (List.all_eq_true.1 List.all_takeWhile c hc)
  have hrest : rest.takeWhile isBlank ++ Text.trimLeft rest = rest := List.takeWhile_append_dropWhile
  rw [afterSeparator, List.drop_left, Standing.walk_append_of_plain hsep,
    ← Standing.walk_append_of_plain hblanks, hrest]

/-- If separators are no part of the brace structure, that structure alone decides how a scan comes out. -/
theorem outcome_scan {depth : Nat} (hsep : ∀ c ∈ separator, Plain c) :
    outcome (scan separator depth text) = verdict (Standing.walk ⟨depth, false⟩ text) := by
  fun_induction scan separator depth text with
  | case1 => rfl
  | case2 depth hdepth => exact (if_neg hdepth).symm
  | case3 depth c rest h ih =>
    obtain ⟨rfl, hstarts⟩ := h
    rw [outcome_map, ih, walk_afterSeparator hsep (startsWith_iff.1 hstarts)]
  | case4 depth rest h ih =>
    rw [outcome_map, ih]
    cases rest <;> rfl
  | case5 depth rest h _ ih =>
    rw [outcome_map, ih]
    rfl
  | case6 => rfl
  | case7 depth rest hdepth h _ _ ih =>
    obtain ⟨depth, rfl⟩ := Nat.exists_eq_succ_of_ne_zero hdepth
    rw [outcome_map, ih]
    rfl
  | case8 depth c rest h hbackslash hopen hclose ih =>
    rw [outcome_map, ih, Standing.walk_plain ⟨hbackslash, hopen, hclose⟩]

/-! ## Whole texts -/

theorem items_of_ne_nil (ht : text ≠ []) : items separator text = .ok found ↔ scan separator 0 text = .ok found := by
  rw [items, if_neg (by simpa using ht)]
  cases h : scan separator 0 text with
  | ok found' => simp
  | error e => cases e <;> simp

/-- If separators are no part of the brace structure, a text has items exactly if all its groups are closed and no
other brace closes one. -/
theorem exists_items_eq_ok_iff (hsep : ∀ c ∈ separator, Plain c) :
    (∃ found, items separator text = .ok found) ↔ ∃ q, Standing.ground.walk text = some q ∧ q.depth = 0 := by
  rw [← verdict_eq_ok_iff, Standing.ground, ← outcome_scan hsep, outcome_eq_ok_iff]
  cases text with
  | nil => simp [items, scan]
  | cons c rest => simp only [items_of_ne_nil (List.cons_ne_nil c rest)]

/-- A text is refused exactly if its braces do not match, and the error says how. -/
theorem items_eq_error_iff (hsep : ∀ c ∈ separator, Plain c) {e : Error} :
    items separator text = .error e ↔
      e = .extraCloseBrace text ∧ Standing.ground.walk text = none ∨
        e = .missingCloseBrace text ∧ ∃ q, Standing.ground.walk text = some q ∧ q.depth ≠ 0 := by
  rw [← verdict_eq_extraClose_iff, ← verdict_eq_missingClose_iff, Standing.ground, ← outcome_scan hsep,
    outcome_eq_error_iff, outcome_eq_error_iff]
  cases text with
  | nil => simp [items, scan]
  | cons c rest =>
    rw [items, if_neg (by simp)]
    rcases hscan : scan separator 0 (c :: rest) with (_ | _) | found <;> simp [eq_comm]

/-- If separators are no part of the brace structure, a balanced text has items, and they are balanced. -/
theorem exists_items_eq_ok (hsep : ∀ c ∈ separator, Plain c) (ht : IsBalanced text) :
    ∃ found, items separator text = .ok found ∧ ∀ item ∈ found, IsBalanced item := by
  cases text with
  | nil => exact ⟨[], rfl, fun item hitem => nomatch hitem⟩
  | cons c rest =>
    obtain ⟨found, hfound⟩ := (exists_items_eq_ok_iff hsep).2 ⟨.ground, ht, rfl⟩
    have hscan := (items_of_ne_nil (List.cons_ne_nil c rest)).1 hfound
    exact ⟨found, hfound, (scan_eq_ok_iff.1 hscan).isBalanced rfl hsep ht⟩

/-- A text that is not empty has the items into which it divides, and is refused if it does not divide. -/
theorem items_eq_ok_iff (ht : text ≠ []) :
    items separator text = .ok found ↔ Divided separator .ground text found :=
  (items_of_ne_nil ht).trans scan_eq_ok_iff

/-- Groups in the items, a separator in one of them, one behind a backslash, and blanks behind the one that counts. -/
theorem items_groups :
    let text := "{a,b}{c}\\,d,  e{f{g}}\\".toList
    text ≠ [] ∧ items [','] text = .ok ["a,bc\\,d".toList, "ef{g}\\".toList] := by
  intro text
  have ht : text ≠ [] := by decide
  have hparts : text = "{a,b}{c}\\,d".toList ++ ([','] ++ ("  ".toList ++ "e{f{g}}\\".toList)) := by decide
  have hend : Standing.ground.walk "e{f{g}}\\".toList = some ⟨0, true⟩ := by decide
  have hlast : Divided [','] .ground "e{f{g}}\\".toList ["ef{g}\\".toList] := .last hend (by decide)
  have hblank : ∀ c ∈ "  ".toList, isBlank c = true := List.all_eq_true.1 rfl
  have hwhole : ∀ c ∈ "e{f{g}}\\".toList.head?, isBlank c = false := by
    rintro c ⟨⟩
    rfl
  refine ⟨ht, (items_eq_ok_iff ht).2 ?_⟩
  exact .split (by decide) hparts (by decide) (by decide) hblank hwhole hlast

end Separated
end DocState
