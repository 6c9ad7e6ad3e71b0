/-!
Binary floating-point numbers as exact scaled integers.

A finite double is `m · 2 ^ e` for integers `m` and `e`. Everything that has to be exact about
doubles (their order against integers, their remainder, their shortest decimal) is integer
arithmetic on that pair.
-/

set_option autoImplicit false

namespace AlgebraicEffects

/-- The fields of a double. The exponent field of zero marks the doubles below the normal ones, the
greatest one the infinities and the not-a-number. -/
structure DoubleFields where
  isNegative : Bool
  exponent : Nat
  fraction : Nat
  deriving DecidableEq, Repr

namespace DoubleFields

/-- The number of fractions, which is also the significand of the least normal double. -/
def hidden : Nat := Nat.pow 2 52

/-- The exponent field of the infinities and the not-a-number. -/
def greatestExponent : Nat := 2047

def ofFloat (x : Float) : DoubleFields :=
  let bits := x.toBits.toNat
  ⟨bits / Nat.pow 2 63 == 1, bits / hidden % (greatestExponent + 1), bits % hidden⟩

end DoubleFields

/-- The number `mantissa · 2 ^ exponent`. -/
structure Scaled where
  mantissa : Int
  exponent : Int
  deriving DecidableEq, Repr

namespace Scaled

/-- The mantissa at the smaller exponent `e`: the same number written with a finer unit. -/
def atUnit (s : Scaled) (e : Int) : Int :=
  s.mantissa * Nat.pow 2 (s.exponent - e).toNat

def ofInt (n : Int) : Scaled := ⟨n, 0⟩

/-- Two numbers are compared after both are written with the finer of their units. -/
def compare (a b : Scaled) : Ordering :=
  let e := min a.exponent b.exponent
  Ord.compare (a.atUnit e) (b.atUnit e)

/-- The exact remainder of the division that truncates toward zero. -/
def truncatedRemainder (a b : Scaled) : Scaled :=
  let e := min a.exponent b.exponent
  ⟨(a.atUnit e).tmod (b.atUnit e), e⟩

/-- The exact value of a finite double; infinities and the not-a-number have none. -/
def ofFloat? (x : Float) : Option Scaled :=
  let d := DoubleFields.ofFloat x
  let sign : Int := if d.isNegative then -1 else 1
  if d.exponent = DoubleFields.greatestExponent then none
  else if d.exponent = 0 then some ⟨sign * d.fraction, -1074⟩
  else some ⟨sign * (d.fraction + DoubleFields.hidden : Nat), (d.exponent : Int) - 1075⟩

/-- The double with this value, when the value is a double (as a remainder of doubles is). -/
def toFloat (s : Scaled) : Float :=
  Float.scaleB (Float.ofInt s.mantissa) s.exponent

theorem compare_ofInt (m n : Int) : compare (ofInt m) (ofInt n) = Ord.compare m n := by
  simp [compare, ofInt, atUnit]

end Scaled

end AlgebraicEffects
