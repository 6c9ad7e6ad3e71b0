import AlgebraicEffects.Action

/-!
Operands: the values of a form once they are bound to its signature.
-/

set_option autoImplicit false

namespace AlgebraicEffects.Operands

def one (vs : List Value) (f : Value → Action Value) : Action Value :=
  match vs with
  | [a] => f a
  | _ => .fault .badType

def two (vs : List Value) (f : Value → Value → Action Value) : Action Value :=
  match vs with
  | [a, b] => f a b
  | _ => .fault .badType

def three (vs : List Value) (f : Value → Value → Value → Action Value) : Action Value :=
  match vs with
  | [a, b, c] => f a b c
  | _ => .fault .badType

def four (vs : List Value) (f : Value → Value → Value → Value → Action Value) : Action Value :=
  match vs with
  | [a, b, c, d] => f a b c d
  | _ => .fault .badType

end AlgebraicEffects.Operands
