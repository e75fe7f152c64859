import DocState.Proofs.Commands.Reading
import DocState.Proofs.Decimals.Leading
import DocState.Proofs.Numerals.Roman

/-!
# Formatting commands

A counter is formatted by a command of its own for each format, and a number is formatted without any session.  Roman
numerals are also written for a decimal integer in the text.

* `Numeral.styles`: the names of the formatting commands.
* `Numeral.apply_capital`, `Numeral.apply_eq_error_iff`, `Numeral.ofNumeral_roman`: letter cases, refused numbers, and
  roman numerals as text.
* `Session.runText_format`, `Session.runText_romannumeral`: the commands.
* `Session.formats_agree`: the three ways to a numeral.
-/

namespace DocState

open Braces

/-! ## Numerals -/

namespace Numeral

/-- The names of the formatting commands. -/
def styles : List Text :=
  ["arabic".toList, "roman".toList, "Roman".toList, "alph".toList, "Alph".toList, "fnsymbol".toList]

variable {style numeral : Text} {n : Number} {e : Error}

theorem exists_format [Memory] (h : style ∈ styles) :
    ∃ f, Command.lookup? style = some (.report (.format f)) ∧ ∀ n, format n style = f.apply n := by
  simp only [styles, List.mem_cons, List.not_mem_nil, or_false] at h
  rcases h with rfl | rfl | rfl | rfl | rfl | rfl <;> exact ⟨_, rfl, fun _ => rfl⟩

/-- Only the capital letters are other characters when they are small, and these are letters with the same capitals. -/
theorem toLower_cases (c : Char) :
    c.toLower = c ∨ c.toLower.toUpper = c.toUpper ∧ c.toLower.isAlpha = true := by
  by_cases hcapital : 'A'.val ≤ c.val ∧ c.val ≤ 'Z'.val
  · right
    obtain ⟨hfirst, hlast⟩ : 65 ≤ c.toNat ∧ c.toNat ≤ 90 := hcapital
    rw [← Char.ofNat_toNat c]
    interval_cases c.toNat <;> decide
  · exact .inl (dif_neg hcapital)

/-- A text in capitals is made from the text in small letters. -/
theorem map_toUpper_inCase (script : Script) (numeral : Text) :
    (Format.inCase ⟨script, false⟩ numeral).map Char.toUpper = Format.inCase ⟨script, true⟩ numeral := by
  unfold Format.inCase
  rw [List.map_map]
  refine List.map_congr_left fun c _ => ?_
  show c.toLower.toUpper = c.toUpper
  exact (toLower_cases c).elim (congrArg Char.toUpper) And.left

theorem isAlpha_toLower {c : Char} (h : c.isAlpha = true) : c.toLower.isAlpha = true :=
  (toLower_cases c).elim (fun hsame => hsame.symm ▸ h) And.right

/-- A numeral in capitals is the one in small letters, in capitals. -/
theorem apply_capital [Memory] (script : Script) (n : Number) :
    Format.apply ⟨script, true⟩ n = List.map Char.toUpper <$> Format.apply ⟨script, false⟩ n := by
  rw [Format.apply, Format.apply, Functor.map_map]
  simp only [map_toUpper_inCase]

/-- Only roman numerals are refused, and only for want of room. -/
theorem apply_eq_error_iff [Memory] {f : Format} : f.apply n = .error e ↔ f.script = .roman ∧
    0 < n.toInt ∧ Memory.grants (romanRoom n.toInt.toNat) = false ∧ e = .invalidNumber n.text := by
  obtain ⟨script, capital⟩ := f
  cases script with
  | roman =>
    have hroman : Format.apply ⟨.roman, capital⟩ n = .error e ↔ roman n = .error e := by
      rw [Format.apply, Script.numeral]
      cases roman n with
      | ok numeral => exact ⟨nofun, nofun⟩
      | error e' => rfl
    rw [hroman, roman_eq_error_iff]
    exact (and_iff_right rfl).symm
  | arabic | letter | symbol => exact ⟨nofun, nofun⟩

theorem isAlpha_of_roman [Memory] (h : roman n = .ok numeral) : ∀ c ∈ numeral, c.isAlpha = true := by
  intro c hc
  rw [eq_written_of_roman h] at hc
  exact isAlpha_of_mem_written hc

/-- Roman numerals are text: they have nothing but letters, and are empty for a number that is not positive. -/
theorem ofNumeral_roman [Memory] (n : Number) :
    Expansion.ofNumeral <$> Format.apply ⟨.roman, false⟩ n = Expansion.text <$> Format.apply ⟨.roman, false⟩ n := by
  rw [Format.apply, Script.numeral]
  cases hroman : roman n with
  | error e => rfl
  | ok numeral =>
    have hletters : (Format.inCase ⟨.roman, false⟩ numeral).all Char.isAlpha = true :=
      List.all_eq_true.2 (List.forall_mem_map.2 fun c hc => isAlpha_toLower (isAlpha_of_roman hroman c hc))
    exact congrArg Except.ok (if_pos hletters)

end Numeral

/-! ## Decimal text in braces -/

theorem Number.isBalanced_text (n : Number) : IsBalanced n.text := by
  have hdigits : ∀ m, ∀ c ∈ Decimal.ofNat m, Plain c := fun m c hc =>
    plain_of_isDigit (Decimal.isDigit_of_isRun (Decimal.isRun_ofNat m) hc)
  refine isBalanced_of_forall_plain ?_
  unfold text
  cases n.toInt with
  | ofNat m => exact hdigits m
  | negSucc m => exact List.forall_mem_cons.2 ⟨by decide, hdigits (m + 1)⟩

/-! ## Commands -/

namespace Session

variable {s : Session} {raw text style : Text}

theorem runText_format [Memory] (hstyle : style ∈ Numeral.styles) (hraw : IsBalanced raw) :
    s.runText style (braced raw) =
      (s.counters.value raw.trim >>= fun n => .ofNumeral <$> Numeral.format n style, s) := by
  obtain ⟨f, hname, hformat⟩ := Numeral.exists_format hstyle
  have hrun := runText_of_reads (s := s) hname (Report.reads_format f) (List.forall_mem_singleton.2 hraw)
  rw [List.flatMap_singleton] at hrun
  simp only [hrun, hformat]

theorem runText_romannumeral [Memory] (htext : IsBalanced text) :
    s.runText "romannumeral".toList (braced text) =
      (Number.leading text >>= fun n => .text <$> Numeral.format n "roman".toList, s) := by
  have hname : Command.lookup? "romannumeral".toList = some (.report .romanNumeral) := by decide
  have hrun := runText_of_reads (s := s) hname Report.reads_romanNumeral (List.forall_mem_singleton.2 htext)
  rwa [List.flatMap_singleton] at hrun

/-- The command of a format writes the numeral of a counter as text if it has no character but letters, and as
mathematics otherwise, or is refused as the formatting of the value is, which happens only if there is no room for a
roman numeral.  The command for small roman numerals does what is done for the decimal text of the value.  The formats in
capitals give the numerals of those in small letters, in capitals. -/
theorem formats_agree [Memory] {c : Text} (hc : IsBalanced c) (hfirst : ∀ a ∈ c.head?, isBlank a = false)
    (hlast : ∀ a ∈ c.getLast?, isBlank a = false) {n : Number} (hn : s.counters.value c = .ok n) :
    (∀ style ∈ Numeral.styles,
      (∀ numeral, Numeral.format n style = .ok numeral → s.runText style (braced c) =
        (.ok (if numeral.all Char.isAlpha then .text numeral else .math numeral), s)) ∧
      ∀ e, Numeral.format n style = .error e →
        (0 < n.toInt ∧ Memory.grants (Numeral.romanRoom n.toInt.toNat) = false ∧ e = .invalidNumber n.text) ∧
          s.runText style (braced c) = (.error e, s)) ∧
    s.runText "roman".toList (braced c) = s.runText "romannumeral".toList (braced n.text) ∧
    ∀ m, Numeral.format m "Roman".toList = List.map Char.toUpper <$> Numeral.format m "roman".toList ∧
      Numeral.format m "Alph".toList = List.map Char.toUpper <$> Numeral.format m "alph".toList := by
  have hrun : ∀ style ∈ Numeral.styles,
      s.runText style (braced c) = (.ofNumeral <$> Numeral.format n style, s) := by
    intro style hstyle
    rw [runText_format hstyle hc, Text.trim_eq_self hfirst hlast, hn]
    rfl
  refine ⟨fun style hstyle => ⟨fun numeral hnumeral => ?_, fun e he => ⟨?_, ?_⟩⟩, ?_, fun m => ⟨?_, ?_⟩⟩
  · rw [hrun style hstyle, hnumeral]
    rfl
  · obtain ⟨f, -, hformat⟩ := Numeral.exists_format hstyle
    rw [hformat] at he
    exact (Numeral.apply_eq_error_iff.1 he).2
  · rw [hrun style hstyle, he]
    rfl
  · have hread : Number.leading n.text = .ok n := Number.leading_of_denotes (Decimal.denotes_ofInt n.toInt)
    rw [hrun "roman".toList (by decide), runText_romannumeral n.isBalanced_text, hread]
    exact congrArg (·, s) (Numeral.ofNumeral_roman n)
  · exact Numeral.apply_capital .roman m
  · exact Numeral.apply_capital .letter m

/-- The greatest number, for whose numeral there is no room. -/
theorem formats_agree_refused :
    let _ : Memory := .upTo 4096
    let c := "my page".toList
    let n : Number := Int64.maxValue
    let s := ((fresh .unchecked).runText "newcounter".toList (braced c)).2
    let s' := (s.runText "setcounter".toList (braced c ++ braced n.text)).2
    IsBalanced c ∧ (∀ a ∈ c.head?, isBlank a = false) ∧ (∀ a ∈ c.getLast?, isBlank a = false) ∧
      s'.counters.value c = .ok n ∧ s'.runText "Roman".toList (braced c) = (.error (.invalidNumber n.text), s') ∧
      s'.runText "romannumeral".toList (braced n.text) = (.error (.invalidNumber n.text), s') ∧
      s'.runText "arabic".toList (braced c) = (.ok (.math n.text), s') := by
  intro _ c n s s'
  have hc : IsBalanced c := by decide
  have hfirst : ∀ a ∈ c.head?, isBlank a = false := by
    rintro a ⟨⟩
    decide
  have hlast : ∀ a ∈ c.getLast?, isBlank a = false := by
    rintro a ⟨⟩
    decide
  have hn : s'.counters.value c = .ok n := by decide +kernel
  obtain ⟨hformat, hroman, -⟩ := formats_agree hc hfirst hlast hn
  have harabic : Numeral.format n "arabic".toList = .ok n.text := by decide +kernel
  have hsmall : Numeral.format n "roman".toList = .error (.invalidNumber n.text) := by decide +kernel
  have hcapital : Numeral.format n "Roman".toList = .error (.invalidNumber n.text) := by decide +kernel
  refine ⟨hc, hfirst, hlast, hn, ?_, ?_, ?_⟩
  · exact ((hformat "Roman".toList (by decide)).2 _ hcapital).2
  · rw [← hroman]
    exact ((hformat "roman".toList (by decide)).2 _ hsmall).2
  · have hdigits : n.text.all Char.isAlpha = false := by decide +kernel
    have hrun := (hformat "arabic".toList (by decide)).1 _ harabic
    rw [hdigits] at hrun
    exact hrun

end Session
end DocState
