import DocState.Proofs.Separated.Division

/-!
# Items in braces are read back

* `scan_append_of_walk`: inside a group, a text is read as it stands.
* `scan_braced`: a group is one item, whatever is in it.
* `items_intercalate_braced`: items in braces with a separator between them are the items of that text.
-/

namespace DocState
namespace Separated

open Braces

variable {separator t rest : Text} {c : Char} {depth : Nat}

/-! ## Reading inside a group -/

theorem scan_escaped_succ :
    scan separator (depth + 1) ('\\' :: c :: rest) = prepend ['\\', c] <$> scan separator (depth + 1) rest := by
  rw [scan]
  simp

theorem scan_open_succ :
    scan separator (depth + 1) ('{' :: rest) = prepend ['{'] <$> scan separator (depth + 2) rest := by
  rw [scan]
  simp

theorem scan_close_succ :
    scan separator (depth + 2) ('}' :: rest) = prepend ['}'] <$> scan separator (depth + 1) rest := by
  rw [scan]
  simp

theorem scan_plain_succ (h : Plain c) :
    scan separator (depth + 1) (c :: rest) = prepend [c] <$> scan separator (depth + 1) rest := by
  rw [scan]
  simp [h.1, h.2.1, h.2.2]

theorem map_prepend_prepend (s t : Text) (x : Except Imbalance (List Text)) :
    prepend s <$> prepend t <$> x = prepend (s ++ t) <$> x := by
  cases x with
  | error e => rfl
  | ok found => exact congrArg Except.ok (prepend_prepend s t found)

/-- There is always an item to prepend to. -/
theorem map_prepend_nil : prepend [] <$> scan separator depth t = scan separator depth t := by
  cases h : scan separator depth t with
  | error e => rfl
  | ok found =>
    cases scan_eq_ok_iff.1 h <;> rfl

/-- Inside a group a text goes into the item as it stands, if it closes no group that is open around it. -/
theorem scan_append_of_walk {depth' : Nat} (h : Standing.walk ⟨depth, false⟩ t = some ⟨depth', false⟩) :
    scan separator (depth + 1) (t ++ rest) = prepend t <$> scan separator (depth' + 1) rest := by
  -- inside a group no separator is looked for, so each unit of `t` is read alike whatever the separator is
  induction t using byUnits generalizing depth with
  | nil =>
    cases h
    exact map_prepend_nil.symm
  | pending => cases h
  | escaped c t ih =>
    rw [List.cons_append, List.cons_append, scan_escaped_succ, ih h, map_prepend_prepend]
    rfl
  | opening t ih =>
    rw [List.cons_append, scan_open_succ, ih h, map_prepend_prepend]
    rfl
  | closing t ih =>
    cases depth with
    | zero => cases h
    | succ depth =>
      rw [Standing.walk_close] at h
      rw [List.cons_append, scan_close_succ, ih h, map_prepend_prepend]
      rfl
  | plain c t hplain ih =>
    rw [Standing.walk_plain hplain] at h
    rw [List.cons_append, scan_plain_succ hplain, ih h, map_prepend_prepend]
    rfl

/-! ## Groups -/

theorem not_begins_braced (hopen : separator.head? ≠ some '{') : ¬ Begins separator (braced t ++ rest) := by
  rintro ⟨hne, hprefix⟩
  cases separator with
  | nil => exact hne rfl
  | cons c separator =>
    obtain ⟨rfl, -⟩ := List.cons_prefix_cons.1 hprefix
    exact hopen rfl

/-- A group in front of a text belongs to its first item. -/
theorem scan_braced (hopen : separator.head? ≠ some '{') (ht : IsBalanced t) :
    scan separator 0 (braced t ++ rest) = prepend t <$> scan separator 0 rest := by
  have hinside : scan separator 1 (t ++ '}' :: rest) = prepend t <$> scan separator 1 ('}' :: rest) :=
    scan_append_of_walk ht
  have hclose : scan separator 1 ('}' :: rest) = scan separator 0 rest := by
    rw [scan]
    simp [map_prepend_nil]
  have hstarts : ¬ (0 = 0 ∧ startsWith separator ('{' :: (t ++ '}' :: rest)) = true) := by
    rintro ⟨-, hstarts⟩
    have hbegins := startsWith_iff.1 hstarts
    rw [show '{' :: (t ++ '}' :: rest) = braced t ++ rest by simp [braced]] at hbegins
    exact not_begins_braced hopen hbegins
  have hread : scan separator 0 ('{' :: (t ++ '}' :: rest)) = scan separator 1 (t ++ '}' :: rest) := by
    rw [scan, dif_neg hstarts]
    simp [map_prepend_nil]
  rw [show braced t ++ rest = '{' :: (t ++ '}' :: rest) by simp [braced], hread, hinside, hclose]

/-- A separator in front of a group ends an empty item. -/
theorem scan_separator_braced (hne : separator ≠ []) :
    scan separator 0 (separator ++ (braced t ++ rest)) = ([] :: ·) <$> scan separator 0 (braced t ++ rest) := by
  have hstarts : startsWith separator (separator ++ (braced t ++ rest)) = true :=
    startsWith_iff.2 ⟨hne, List.prefix_append _ _⟩
  have hafter : afterSeparator separator (separator ++ (braced t ++ rest)) = braced t ++ rest := by
    rw [afterSeparator, List.drop_left]
    exact Text.trimLeft_cons_of_not_isBlank (by decide) _
  obtain ⟨c, text, htext⟩ : ∃ c text, separator ++ (braced t ++ rest) = c :: text := by
    obtain ⟨c, separator', rfl⟩ := List.exists_cons_of_ne_nil hne
    exact ⟨c, _, rfl⟩
  rw [htext] at hstarts hafter ⊢
  rw [scan, dif_pos ⟨rfl, hstarts⟩, hafter]

/-- Items in braces begin with the first one. -/
theorem exists_intercalate_braced (separator first : Text) (later : List Text) :
    ∃ rest, separator.intercalate ((first :: later).map braced) = braced first ++ rest := by
  cases later with
  | nil => exact ⟨[], by simp⟩
  | cons second later =>
    refine ⟨separator ++ separator.intercalate ((second :: later).map braced), ?_⟩
    simp only [List.map_cons, List.intercalate_cons_cons, List.append_assoc]

theorem scan_intercalate_braced (hne : separator ≠ []) (hopen : separator.head? ≠ some '{') {first : Text}
    {later : List Text} (hbalanced : ∀ item ∈ first :: later, IsBalanced item) :
    scan separator 0 (separator.intercalate ((first :: later).map braced)) = .ok (first :: later) := by
  have hfirst : IsBalanced first := hbalanced first List.mem_cons_self
  induction later generalizing first with
  | nil =>
    have hgroup : scan separator 0 (braced first ++ []) = prepend first <$> scan separator 0 [] :=
      scan_braced hopen hfirst
    rw [List.append_nil, scan, if_pos rfl] at hgroup
    rw [List.map_singleton, List.intercalate_singleton, hgroup]
    exact congrArg (fun item => Except.ok [item]) (List.append_nil first)
  | cons second later ih =>
    have hlater : ∀ item ∈ second :: later, IsBalanced item := fun item hitem =>
      hbalanced item (List.mem_cons_of_mem first hitem)
    obtain ⟨rest, hrest⟩ := exists_intercalate_braced separator second later
    have hread := ih hlater (hlater second List.mem_cons_self)
    rw [hrest] at hread
    rw [List.map_cons, List.map_cons, List.intercalate_cons_cons, ← List.map_cons, hrest, List.append_assoc,
      scan_braced hopen hfirst, scan_separator_braced hne, hread]
    exact congrArg (fun item => Except.ok (item :: second :: later)) (List.append_nil first)

/-- Balanced items, each in braces and with a separator between them, are read back as they are. -/
theorem items_intercalate_braced (hne : separator ≠ []) (hopen : separator.head? ≠ some '{') {found : List Text}
    (hbalanced : ∀ item ∈ found, IsBalanced item) :
    items separator (separator.intercalate (found.map braced)) = .ok found := by
  cases found with
  | nil => rfl
  | cons first later =>
    obtain ⟨rest, hrest⟩ := exists_intercalate_braced separator first later
    have hne' : separator.intercalate ((first :: later).map braced) ≠ [] := by
      rw [hrest]
      exact List.cons_ne_nil _ _
    exact (items_of_ne_nil hne').2 (scan_intercalate_braced hne hopen hbalanced)

/-- An empty item, one that begins with a blank, and one that contains the separator, which has blanks and a brace of
its own. -/
theorem items_three_groups :
    let separator := [' ', '}', ',', ' ']
    let found := ["".toList, " x".toList, "{a }, b".toList]
    separator ≠ [] ∧ separator.head? ≠ some '{' ∧ (∀ item ∈ found, IsBalanced item) ∧
      items separator ("{}".toList ++ separator ++ "{ x}".toList ++ separator ++ "{{a }, b}".toList) = .ok found := by
  intro separator found
  have hne : separator ≠ [] := by decide
  have hopen : separator.head? ≠ some '{' := by decide
  have hbalanced : ∀ item ∈ found, IsBalanced item := by decide
  have htext : "{}".toList ++ separator ++ "{ x}".toList ++ separator ++ "{{a }, b}".toList =
      separator.intercalate (found.map braced) := by decide
  rw [htext]
  exact ⟨hne, hopen, hbalanced, items_intercalate_braced hne hopen hbalanced⟩

end Separated
end DocState
