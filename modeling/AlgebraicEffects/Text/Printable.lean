import AlgebraicEffects.Text.Invisible

/-!
Characters that are written as themselves inside quotes: those that have a visible form of their
own, and the ordinary space. All others are written by number instead.
-/

set_option autoImplicit false

namespace AlgebraicEffects.Text

def isPrintable (c : Char) : Bool :=
  if c.toNat < 0x7F then 0x20 ≤ c.toNat else !isInvisible c.toNat

example : isPrintable ' ' = true := by decide

example : isPrintable '\n' = false := by decide

example : isPrintable '\u0378' = false := by decide

end AlgebraicEffects.Text
