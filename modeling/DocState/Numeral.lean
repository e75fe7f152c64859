import DocState.Memory
import DocState.Number

/-!
# Numerals

* `Numeral.arabic`, `Numeral.roman`, `Numeral.letter`, `Numeral.symbol`: a number in the four systems, with
  capitals where there are letters. Only the first one covers all numbers; a number that a system does not
  cover has the empty numeral. A roman numeral may be too long for the `Memory`.
* `Numeral.Format`: a system with a letter case, as the formatting commands name them.
* `Numeral.Format.apply`: a number in a format.
-/

namespace DocState.Numeral

/-! ## The systems -/

/-- Decimal digits. -/
def arabic (n : Number) : Text := n.text

/-- The roman signs and sign pairs, the greatest first. -/
def romanSigns : List (Text × Nat) :=
  [("M".toList, 1000), ("CM".toList, 900), ("D".toList, 500), ("CD".toList, 400), ("C".toList, 100),
    ("XC".toList, 90), ("L".toList, 50), ("XL".toList, 40), ("X".toList, 10), ("IX".toList, 9),
    ("V".toList, 5), ("IV".toList, 4), ("I".toList, 1)]

/-- Writes each sign as often as it fits into what the signs before it have left. The result is the text and
what all signs have left. -/
def romanWith : List (Text × Nat) → Nat → Text × Nat
  | [], n => ([], n)
  | (sign, worth) :: signs, n =>
    let (text, left) := romanWith signs (n % worth)
    ((List.replicate (n / worth) sign).flatten ++ text, left)

/-- The room that is made for a roman numeral: one sign for each thousand, and fifteen letters for the rest, which
never has more than twelve, as in `DCCCLXXXVIII`. -/
def romanRoom (n : Nat) : Nat := n / 1000 + 15

/-- The roman numeral of a positive number, with as many `M` as it needs. A number for whose numeral no room is
granted is refused. -/
def roman [Memory] (n : Number) : Except Error Text :=
  if n.toInt ≤ 0 then .ok []
  else if Memory.grants (romanRoom n.toInt.toNat) then .ok (romanWith romanSigns n.toInt.toNat).1
  else .error (.invalidNumber n.text)

/-- The capital letters. -/
def letters : List Text := "ABCDEFGHIJKLMNOPQRSTUVWXYZ".toList.map ([·])

/-- The footnote symbols: asterisk, dagger, double dagger, section, paragraph, parallels, and the first three
doubled. -/
def symbols : List Text :=
  [['*'], ['\u2020'], ['\u2021'], ['\u00A7'], ['\u00B6'], ['\u2016'], ['*', '*'], ['\u2020', '\u2020'],
    ['\u2021', '\u2021']]

/-- The sign that a number from one on counts in a list. -/
def counted (signs : List Text) (n : Number) : Text :=
  if n.toInt ≤ 0 then [] else (signs[n.toInt.toNat - 1]?).getD []

/-- The capital letter of a number from 1 to 26. -/
def letter (n : Number) : Text := counted letters n

/-- The footnote symbol of a number from 1 to 9. -/
def symbol (n : Number) : Text := counted symbols n

/-! ## Formats -/

/-- The systems of numerals. -/
inductive Script
  | arabic
  | roman
  | letter
  | symbol
deriving DecidableEq, Repr

/-- A number in a system. -/
def Script.numeral [Memory] : Script → Number → Except Error Text
  | .arabic, n => .ok (Numeral.arabic n)
  | .roman, n => Numeral.roman n
  | .letter, n => .ok (Numeral.letter n)
  | .symbol, n => .ok (Numeral.symbol n)

/-- A system with capitals or small letters. -/
structure Format where
  script : Script
  capital : Bool
deriving DecidableEq, Repr

namespace Format

/-- The formats by the names of their commands. -/
def named : List (Text × Format) :=
  [("arabic".toList, ⟨.arabic, false⟩), ("roman".toList, ⟨.roman, false⟩), ("Roman".toList, ⟨.roman, true⟩),
    ("alph".toList, ⟨.letter, false⟩), ("Alph".toList, ⟨.letter, true⟩),
    ("fnsymbol".toList, ⟨.symbol, false⟩)]

/-- A numeral in capitals or small letters. Numerals have no letters but those of ASCII. -/
def inCase (f : Format) (numeral : Text) : Text :=
  numeral.map fun c => if f.capital then c.toUpper else c.toLower

/-- A number in a format. -/
def apply [Memory] (f : Format) (n : Number) : Except Error Text := f.inCase <$> f.script.numeral n

end Format

/-- A number in the format of a formatting command, given by name. -/
def format [Memory] (n : Number) (style : Text) : Except Error Text :=
  match Format.named.lookup style with
  | some f => f.apply n
  | none => .error (.unknownCommand style)

end DocState.Numeral
