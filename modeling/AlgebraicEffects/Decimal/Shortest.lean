import AlgebraicEffects.Number.Scaled

/-!
Shortest decimals of doubles.

Every double stands for the interval of reals that round to it, its two ends included exactly when
its significand is even. The decimal written for it is one with the fewest significant digits in
that interval, and of those the one nearest to the double. For a fixed number of digits the
candidates form a grid, and if any point of the grid lies in the interval then so does one of the
two grid points around the double, so only those two are tried.
-/

set_option autoImplicit false

namespace AlgebraicEffects

/-- The number `digits · 10 ^ exponent`. -/
structure Decimal where
  digits : Nat
  exponent : Int
  deriving DecidableEq, Repr

namespace Decimal

/-- Compares `c · 10 ^ p` with `b · 2 ^ e` exactly, both sides cleared of negative powers. -/
def compareBinary (c : Nat) (p : Int) (b : Nat) (e : Int) : Ordering :=
  compare (c * Nat.pow 10 p.toNat * Nat.pow 2 (-e).toNat)
    (b * Nat.pow 2 e.toNat * Nat.pow 10 (-p).toNat)

/-- A positive double `significand · 2 ^ exponent`; `narrow` says that the gap below it is half the
gap above it, which holds at powers of two. -/
structure Binade where
  significand : Nat
  exponent : Int
  narrow : Bool

namespace Binade

/-- Lower and upper end of the rounding interval, in units of a quarter of the last place. -/
def lower (x : Binade) : Nat := 4 * x.significand - if x.narrow then 1 else 2

def upper (x : Binade) : Nat := 4 * x.significand + 2

/-- The point `c · 10 ^ p` rounds to `x`. -/
def holds (x : Binade) (c : Nat) (p : Int) : Bool :=
  let closed := x.significand % 2 == 0
  let below := compareBinary c p x.lower (x.exponent - 2)
  let above := compareBinary c p x.upper (x.exponent - 2)
  (below == .gt || closed && below == .eq) && (above == .lt || closed && above == .eq)

/-- The grid point at or below `x` on the grid of step `10 ^ p`. -/
def gridFloor (x : Binade) (p : Int) : Nat :=
  (x.significand * Nat.pow 2 x.exponent.toNat * Nat.pow 10 (-p).toNat) /
    (Nat.pow 2 (-x.exponent).toNat * Nat.pow 10 p.toNat)

/-- How the midpoint between the grid points `c` and `c + 1` compares with `x`. -/
def midpointOrder (x : Binade) (c : Nat) (p : Int) : Ordering :=
  compareBinary (2 * c + 1) p (2 * x.significand) x.exponent

/-- The point nearest to `x` on one grid; of two that are equally near the even one. -/
def nearestPoint (x : Binade) (p : Int) : Nat :=
  let c := x.gridFloor p
  match x.midpointOrder c p with
  | .gt => c
  | .lt => c + 1
  | .eq => if c % 2 = 0 then c else c + 1

/-- The nearest of the two neighbours of `x` on one grid that round to `x`. -/
def nearestOnGrid (x : Binade) (p : Int) : Option Nat :=
  let c := x.gridFloor p
  match x.holds c p, x.holds (c + 1) p with
  | true, true => some (x.nearestPoint p)
  | true, false => some c
  | false, true => some (c + 1)
  | false, false => none

/-- The exponent of the leading decimal digit: `10 ^ L ≤ x < 10 ^ (L + 1)`. -/
def leadingExponent (x : Binade) : Int :=
  let whole := x.gridFloor 0
  if whole ≠ 0 then ((Nat.toDigits 10 whole).length : Int) - 1
  else
    match (List.range 330).find? fun (j : Nat) => x.gridFloor (-((j : Int) + 1)) ≠ 0 with
    | some j => -((j : Int) + 1)
    | none => 0

end Binade

/-- Trailing zeros go into the exponent. -/
def trim : Nat → Decimal → Decimal
  | 0, d => d
  | fuel + 1, d =>
    if d.digits % 10 = 0 ∧ d.digits ≠ 0 then trim fuel ⟨d.digits / 10, d.exponent + 1⟩ else d

/-- The shortest decimal of a positive double: the first digit count whose grid meets the interval.
Seventeen digits always meet it. -/
def shortest (x : Binade) : Decimal :=
  let lead := x.leadingExponent
  let found := (List.range 17).findSome? fun (k : Nat) =>
    (x.nearestOnGrid (lead - k)).map fun c => (⟨c, lead - k⟩ : Decimal)
  trim 17 (found.getD ⟨x.gridFloor 0, 0⟩)

end Decimal

/-- The part of a double that its shortest decimal depends on, when it is finite and not zero. -/
def Decimal.Binade.ofFloat? (x : Float) : Option Decimal.Binade :=
  let d := DoubleFields.ofFloat x
  if d.exponent = DoubleFields.greatestExponent then none
  else if d.exponent = 0 then
    if d.fraction = 0 then none else some ⟨d.fraction, -1074, false⟩
  else
    some ⟨d.fraction + DoubleFields.hidden, (d.exponent : Int) - 1075,
      d.fraction == 0 && 1 < d.exponent⟩

namespace Text

/-- How a decimal is laid out: exponents of the leading digit from `positionalFrom` up to, but not
including, `positionalBelow` are written positionally. -/
structure DecimalLayout where
  positionalFrom : Int
  positionalBelow : Int
  wholeSuffix : String
  exponentWidth : Nat
  infinity : String
  notANumber : String

/-- Numbers are written positionally from `0.0001` to just under `10 ^ 16`, always with a point;
other exponents carry a sign and at least two digits. -/
def DecimalLayout.plain : DecimalLayout where
  positionalFrom := -4
  positionalBelow := 16
  wholeSuffix := ".0"
  exponentWidth := 2
  infinity := "inf"
  notANumber := "nan"

/-- Writes a positive decimal. -/
def DecimalLayout.write (layout : DecimalLayout) (d : Decimal) : String :=
  let digits := Nat.toDigits 10 d.digits
  let lead : Int := d.exponent + digits.length - 1
  if layout.positionalFrom ≤ lead ∧ lead < layout.positionalBelow then
    if 0 ≤ d.exponent then
      String.ofList (digits ++ List.replicate d.exponent.toNat '0') ++ layout.wholeSuffix
    else if 0 ≤ lead then
      let whole := (lead + 1).toNat
      String.ofList (digits.take whole) ++ "." ++ String.ofList (digits.drop whole)
    else
      "0." ++ String.ofList (List.replicate (-lead - 1).toNat '0' ++ digits)
  else
    let mantissa := String.ofList (digits.take 1) ++
      (if digits.length = 1 then "" else "." ++ String.ofList (digits.drop 1))
    let exponent := Nat.toDigits 10 lead.natAbs
    let padded := List.replicate (layout.exponentWidth - exponent.length) '0' ++ exponent
    mantissa ++ "e" ++ (if lead < 0 then "-" else "+") ++ String.ofList padded

/-- The text of a double: the fewest digits that read back. -/
def ofFloat (x : Float) (layout : DecimalLayout := .plain) : String :=
  if x.isNaN then layout.notANumber
  else
    let sign := if (DoubleFields.ofFloat x).isNegative then "-" else ""
    if x.isInf then sign ++ layout.infinity
    else
      match Decimal.Binade.ofFloat? x with
      | some b => sign ++ layout.write (Decimal.shortest b)
      | none => sign ++ "0" ++ layout.wholeSuffix

end Text

end AlgebraicEffects
