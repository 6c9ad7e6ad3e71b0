import AlgebraicEffects.Script.CoreForms
import AlgebraicEffects.Script.EffectForms
import AlgebraicEffects.Script.Primitives

/-!
The meaning of forms: operands are bound to the signature of the form, and what the form makes gets
an identity.
-/

set_option autoImplicit false

namespace AlgebraicEffects.Form

/-- What a form accepts. -/
def signature : Form → Signature Value
  | .primitive p => p.signature
  | .core c => c.signature
  | .effect e => e.signature

def performBound (f : Form) (b : Bound Value) : Action Value :=
  match f with
  | .primitive p => p.perform b
  | .core c => c.perform b
  | .effect e => e.perform b

/-- Performs a form on its arguments. -/
def perform (f : Form) (arguments : Arguments Value) : Action Value := do
  let b ← Action.accept f.signature arguments
  Action.identify (← f.performBound b)

end AlgebraicEffects.Form
