import AlgebraicEffects.Number.Scaled
import AlgebraicEffects.Random.Digest

/-!
The integers that other seeds stand for.

A double is seeded by its residue modulo a prime, as it is the same number whatever its exponent. A
sequence of bytes is seeded by itself, followed by its digest.
-/

set_option autoImplicit false

namespace AlgebraicEffects.Seed

/-- The number of bits after which powers of two repeat modulo the prime. -/
def period : Nat := 61

/-- The prime of the residues. -/
def modulus : Nat := Nat.pow 2 period - 1

/-- What stands for an infinity. -/
def infinite : Nat := 314159

/-- The residue of a number; the sign is kept. -/
def residue (s : Scaled) : Int :=
  let power := Nat.pow 2 (s.exponent % (period : Int)).toNat
  let r : Int := ((s.mantissa.natAbs * power % modulus : Nat) : Int)
  if s.mantissa < 0 then -r else r

/-- The residue of a double. What is not a number has none of its own. -/
def residueOfFloat (x : Float) : Int :=
  match Scaled.ofFloat? x with
  | some s => residue s
  | none => if x.isNaN then 0 else if x < 0 then -infinite else infinite

/-- A residue as a word of 64 bits. The residue of minus one is set apart and gives way to the one
below. -/
def ofFloat (x : Float) : Int :=
  let r := residueOfFloat x
  (if r = -1 then -2 else r) % (Nat.pow 2 64 : Nat)

/-- Bytes followed by their digest, as one number. -/
def ofBytes (bytes : List UInt8) : Int :=
  ((Digest.numberOf bytes * Nat.pow 2 512 + (Digest.ofBytes bytes).toNat : Nat) : Int)

end AlgebraicEffects.Seed
