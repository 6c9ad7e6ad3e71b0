import AlgebraicEffects.Decimal.Shortest

/-!
Decimals with a fixed number of digits.

A double is rounded once, from its exact value, to a count of places after the point or to a count
of significant digits; a value half way between two goes to the even one.
-/

set_option autoImplicit false

namespace AlgebraicEffects

namespace Decimal

/-- The digits of `n`, filled up with zeros on the left. -/
def filled (count n : Nat) : List Char :=
  let digits := Nat.toDigits 10 n
  List.replicate (count - digits.length) '0' ++ digits

/-- At least as many digits as are asked for. -/
theorem le_length_filled (count n : Nat) : count ≤ (filled count n).length := by
  simp only [filled, List.length_append, List.length_replicate]
  omega

/-- Digits before and after the point. -/
structure Positional where
  whole : List Char
  fraction : List Char
  deriving DecidableEq, Repr

/-- One digit before the point, the others after it, and the exponent of ten. -/
structure Scientific where
  digits : Positional
  exponent : Int
  deriving DecidableEq, Repr

/-- The last `places` of some digits stand after the point. -/
def Positional.split (digits : List Char) (places : Nat) : Positional :=
  ⟨digits.take (digits.length - places), digits.drop (digits.length - places)⟩

/-- As many digits as asked for stand after the point. -/
theorem Positional.length_fraction_split {digits : List Char} {places : Nat}
    (h : places ≤ digits.length) : (split digits places).fraction.length = places := by
  simp only [split, List.length_drop]
  omega

/-- A number, zero if none is given, rounded to a count of places after the point. -/
def rounded (x : Option Binade) (places : Nat) : Positional :=
  let n := match x with
    | some x => x.nearestPoint (-places)
    | none => 0
  .split (filled (places + 1) n) places

theorem length_fraction_rounded (x : Option Binade) (places : Nat) :
    (rounded x places).fraction.length = places :=
  Positional.length_fraction_split (Nat.le_of_succ_le (le_length_filled _ _))

/-- A number, zero if none is given, rounded to a count of digits after the leading one. Rounding up
past the greatest such number gives the next power of ten. -/
def scientific (x : Option Binade) (places : Nat) : Scientific :=
  match x with
  | none => ⟨.split (filled (places + 1) 0) places, 0⟩
  | some x =>
    let lead := x.leadingExponent
    let n := x.nearestPoint (lead - places)
    if n = Nat.pow 10 (places + 1) then
      ⟨.split (filled (places + 1) (Nat.pow 10 places)) places, lead + 1⟩
    else ⟨.split (filled (places + 1) n) places, lead⟩

/-- The digits after the point without the zeros at their end. -/
def Positional.trimmed (d : Positional) : Positional :=
  ⟨d.whole, (d.fraction.reverse.dropWhile (· = '0')).reverse⟩

end Decimal

namespace Text

/-- How a decimal is written. -/
inductive DecimalStyle where
  /-- As many places after the point as the precision says. -/
  | positional
  /-- One digit, as many after the point as the precision says, and an exponent. -/
  | scientific
  /-- As many significant digits as the precision says, in the way that suits the exponent. -/
  | general
  deriving DecidableEq, Repr

/-- Writes digits; the point is left out when nothing follows it, unless it is to be kept. -/
def writePositional (keepsPoint : Bool) (d : Decimal.Positional) : List Char :=
  if d.fraction.isEmpty && !keepsPoint then d.whole else d.whole ++ '.' :: d.fraction

/-- An exponent has a sign and at least two digits. -/
def writeScientific (keepsPoint : Bool) (d : Decimal.Scientific) : List Char :=
  writePositional keepsPoint d.digits ++ 'e' :: (if d.exponent < 0 then '-' else '+') ::
    Decimal.filled 2 d.exponent.natAbs

/-- Writes a number, zero if none is given. In the general style the zeros at the end go, unless the
point is kept, and exponents from `-4` up to the precision are written positionally. -/
def DecimalStyle.write (style : DecimalStyle) (keepsPoint : Bool) (precision : Nat)
    (x : Option Decimal.Binade) : List Char :=
  match style with
  | .positional => writePositional keepsPoint (Decimal.rounded x precision)
  | .scientific => writeScientific keepsPoint (Decimal.scientific x precision)
  | .general =>
    let count := max precision 1
    let d := Decimal.scientific x (count - 1)
    let shorten (d : Decimal.Positional) := if keepsPoint then d else d.trimmed
    if -4 ≤ d.exponent ∧ d.exponent < count then
      writePositional keepsPoint
        (shorten (Decimal.rounded x (count - 1 - d.exponent : Int).toNat))
    else writeScientific keepsPoint ⟨shorten d.digits, d.exponent⟩

end Text

end AlgebraicEffects
