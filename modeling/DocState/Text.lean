/-!
# Text: characters in order, and their blanks

* `Text`: a text is the list of its Unicode scalar values.
* `isBlank`: the characters of the Unicode property `White_Space`.
* `Text.trimLeft`, `Text.trimRight`, `Text.trim`: a text without the blanks at its ends.
* `Text.withoutBlanks`: a text without any blank.
-/

namespace DocState

/-- A text, as the list of its characters. -/
abbrev Text := List Char

/-- The characters of the Unicode property `White_Space`. -/
def isBlank (c : Char) : Bool :=
  let n := c.toNat
  (0x09 ≤ n && n ≤ 0x0D) || n == 0x20 || n == 0x85 || n == 0xA0 || n == 0x1680 ||
    (0x2000 ≤ n && n ≤ 0x200A) || n == 0x2028 || n == 0x2029 || n == 0x202F || n == 0x205F || n == 0x3000

namespace Text

/-- The text from its first character that is not blank. -/
def trimLeft (t : Text) : Text := t.dropWhile isBlank

/-- The text up to its last character that is not blank. -/
def trimRight (t : Text) : Text := (t.reverse.dropWhile isBlank).reverse

/-- The text without the blanks at both ends. -/
def trim (t : Text) : Text := trimRight (trimLeft t)

/-- The text without its blanks. -/
def withoutBlanks (t : Text) : Text := t.filter fun c => !isBlank c

theorem trimLeft_cons_of_not_isBlank {c : Char} (h : isBlank c = false) (t : Text) :
    trimLeft (c :: t) = c :: t := by
  simp [trimLeft, h]

/-- The blanks in front of a text that begins with none. -/
theorem trimLeft_append {blanks t : Text} (hblank : ∀ c ∈ blanks, isBlank c = true)
    (hwhole : ∀ c ∈ t.head?, isBlank c = false) : trimLeft (blanks ++ t) = t := by
  rw [trimLeft, List.dropWhile_append_of_pos hblank]
  cases t with
  | nil => rfl
  | cons c t => exact trimLeft_cons_of_not_isBlank (hwhole c rfl) t

/-- The blanks around a text that neither begins nor ends with one. -/
theorem trim_append {before t after : Text} (hbefore : ∀ c ∈ before, isBlank c = true)
    (hafter : ∀ c ∈ after, isBlank c = true) (hfirst : ∀ c ∈ t.head?, isBlank c = false)
    (hlast : ∀ c ∈ t.getLast?, isBlank c = false) : trim (before ++ (t ++ after)) = t := by
  have hback : trimRight (t ++ after) = t := by
    have hreverse : trimLeft (after.reverse ++ t.reverse) = t.reverse :=
      trimLeft_append (fun c hc => hafter c (List.mem_reverse.1 hc)) (by simpa using hlast)
    rw [trimRight, List.reverse_append]
    exact (congrArg List.reverse hreverse).trans t.reverse_reverse
  cases t with
  | nil =>
    have hfront : trimLeft (before ++ after ++ []) = [] := trimLeft_append
      (fun c hc => (List.mem_append.1 hc).elim (hbefore c) (hafter c)) nofun
    rw [List.append_nil] at hfront
    rw [List.nil_append, trim, hfront]
    rfl
  | cons c t =>
    have hfront : trimLeft (before ++ (c :: t ++ after)) = c :: t ++ after := trimLeft_append hbefore hfirst
    rw [trim, hfront, hback]

theorem trim_eq_self {t : Text} (hfirst : ∀ c ∈ t.head?, isBlank c = false)
    (hlast : ∀ c ∈ t.getLast?, isBlank c = false) : t.trim = t := by
  have h : trim ([] ++ (t ++ [])) = t := trim_append nofun nofun hfirst hlast
  rwa [List.nil_append, List.append_nil] at h

theorem head?_trimLeft (t : Text) : ∀ c ∈ (trimLeft t).head?, isBlank c = false := by
  intro c hc
  have h := List.head?_dropWhile_not isBlank t
  rw [trimLeft] at hc
  rw [Option.mem_def.1 hc] at h
  exact h

theorem getLast?_trim (t : Text) : ∀ c ∈ (trim t).getLast?, isBlank c = false := by
  rw [trim, trimRight, List.getLast?_reverse]
  exact head?_trimLeft _

theorem withoutBlanks_append (s t : Text) : withoutBlanks (s ++ t) = s.withoutBlanks ++ t.withoutBlanks :=
  List.filter_append s t

end Text

end DocState
