import AlgebraicEffects.Handler.Basic

/-!
Environment: the effects `read`, answered the whole environment, and `ask`, answered the value under
a key. The environment is fixed when the handler is made.
-/

set_option autoImplicit false

namespace AlgebraicEffects.Environment

def readName : String := "read"

def askName : String := "ask"

/-- The operation that reads the whole environment. -/
def read : Value := .bare readName []

/-- The operation that asks for one key. -/
def ask (key : Value) : Value := .bare askName [key]

/-- The frozen dictionary of an environment; one that is frozen already stays what it is. -/
def frozen (environment : Value) : Action Value :=
  match environment with
  | .frozen tag entries => return .frozen tag entries
  | environment => do Action.identify (.frozen 0 (← environment.entriesIfAny))

/-- A handler that answers from the entries of `environment`. -/
def handler (environment : Value) : Action Value := do
  match ← frozen environment with
  | .frozen tag entries =>
    return Handler.ofFunctions [(readName, .readAll tag entries), (askName, .askFor entries)] none
  | _ => .fault .badType

def readAllBody (tag : Nat) (environment : List (Value × Value)) (call : Arguments Value) :
    Action Value :=
  Action.takeOne "resume" call fun resume => Action.ask resume [.frozen tag environment]

/-- Answers the value under a key; a key that the environment lacks is a failure of its own. -/
def askForBody (environment : List (Value × Value)) (call : Arguments Value) : Action Value :=
  Action.takeTwo "key" "resume" call fun key resume => do
    match ← Value.find environment key with
    | some v => Action.ask resume [v]
    | none => .fail (← Action.missing key)

end AlgebraicEffects.Environment
