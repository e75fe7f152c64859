import DocState.Error

/-!
# Separated texts

A separated text holds items with a separator between them. Braces protect: a separator inside a group does
not count, and the outermost braces of an item are dropped. A backslash makes the next character inert, and
both stay in the item. The blanks after a separator are skipped.

* `Separated.scan`: the items of the rest of a text, at a given brace depth.
* `Separated.items`: the items of a text; the empty text has none.
-/

namespace DocState.Separated

/-- How the braces of a text can fail to match. -/
inductive Imbalance
  | extraClose
  | missingClose
deriving DecidableEq, Repr

/-- Puts characters in front of the first item. -/
def prepend (chunk : Text) : List Text → List Text
  | [] => [chunk]
  | item :: items => (chunk ++ item) :: items

/-- Whether an unprotected separator stands at the start of a text. The empty separator stands nowhere. -/
def startsWith (separator text : Text) : Bool := !separator.isEmpty && separator.isPrefixOf text

/-- The text after the separator at its start and the blanks behind that. -/
def afterSeparator (separator text : Text) : Text := Text.trimLeft (text.drop separator.length)

theorem length_afterSeparator_lt {separator text : Text} (h : startsWith separator text = true) :
    (afterSeparator separator text).length < text.length := by
  simp only [startsWith, Bool.and_eq_true, Bool.not_eq_true', List.isEmpty_eq_false_iff,
    List.isPrefixOf_iff_prefix] at h
  obtain ⟨hne, rest, rfl⟩ := h
  have hpos := List.length_pos_iff.2 hne
  have hle : (Text.trimLeft rest).length ≤ rest.length := (List.dropWhile_suffix isBlank).length_le
  simp only [afterSeparator, List.drop_left, List.length_append]
  omega

/-- The items of the rest of a text that stands `depth` braces deep. The first item may have begun before. -/
def scan (separator : Text) (depth : Nat) : Text → Except Imbalance (List Text)
  | [] => if depth = 0 then .ok [[]] else .error .missingClose
  | c :: rest =>
    if h : depth = 0 ∧ startsWith separator (c :: rest) = true then
      ([] :: ·) <$> scan separator 0 (afterSeparator separator (c :: rest))
    else if c = '\\' then prepend ('\\' :: rest.take 1) <$> scan separator depth (rest.drop 1)
    else if c = '{' then prepend (if depth = 0 then [] else ['{']) <$> scan separator (depth + 1) rest
    else if c = '}' then
      if depth = 0 then .error .extraClose
      else prepend (if depth = 1 then [] else ['}']) <$> scan separator (depth - 1) rest
    else prepend [c] <$> scan separator depth rest
termination_by text => text.length
decreasing_by
  · exact length_afterSeparator_lt h.2
  · exact Nat.lt_succ_of_le (List.drop_sublist 1 rest).length_le
  all_goals exact Nat.lt_succ_self _

/-- The items of a text. -/
def items (separator text : Text) : Except Error (List Text) :=
  if text.isEmpty then .ok []
  else
    match scan separator 0 text with
    | .ok found => .ok found
    | .error .extraClose => .error (.extraCloseBrace text)
    | .error .missingClose => .error (.missingCloseBrace text)

end DocState.Separated
