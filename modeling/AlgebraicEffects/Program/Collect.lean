import AlgebraicEffects.Replay.Generator

/-!
Programs in sequence.

`collectAll` runs programs from left to right and carries the list of their values; the values
gathered so far belong to the path that is being followed, so branches do not see each other's.
-/

set_option autoImplicit false

namespace AlgebraicEffects.Program

/-- Runs the pending programs after those whose values have been collected. -/
def collectFrom : List Value → List Value → Action Value
  | [], collected => .done (.leaf 0 (.list 0 collected))
  | p :: ps, collected => graft p (.arrowOf (.collecting ps collected))

def collectingBody (pending collected : List Value) (arguments : Arguments Value) :
    Action Value :=
  Action.takeOne "value" arguments fun v => collectFrom pending (collected ++ [v])

/-- Runs programs from left to right and carries the list of their values. -/
def collectAll (programs : List Value) : Action Value := collectFrom (programs.map lift) []

/-- Runs programs from left to right and keeps the last value. -/
def sequence (programs : List Value) : Action Value :=
  match programs with
  | [] => .done (.leaf 0 .nothing)
  | ps => do graft (← collectAll ps) (.arrowOf .lastOf)

def lastOfBody (arguments : Arguments Value) : Action Value :=
  Action.takeOne "values" arguments fun vs => Value.index vs (.int (-1))

/-- Applies a function that a program carries to arguments that programs carry. -/
def applyTo (function : Value) (arguments : List Value) : Action Value :=
  graft function (.arrowOf (.applying arguments))

def applyingBody (programs : List Value) (arguments : Arguments Value) : Action Value :=
  Action.takeOne "func" arguments fun f => do
    graft (← collectAll programs) (.arrowOf (.spreading f))

/-- Calls a function with the items of a list as its arguments. -/
def spreadingBody (f : Value) (arguments : Arguments Value) : Action Value :=
  Action.takeOne "args" arguments fun vs => do Action.ask f (← vs.items)

/-- Applies a function to items from left to right and collects what the programs it gives carry. A
generator is asked for each item when the function is done with the one before. -/
def traverse (items f : Value) : Action Value :=
  match items with
  | .generator address _ => Action.ask (.arrowOf (.traversing address f [])) []
  | items => do collectAll (← (← items.turns).mapM fun turn => do Action.ask f [← turn])

/-- Goes on with the next item of a generator. -/
def traversingBody (address : Nat) (f : Value) (collected : List Value) : Action Value := do
  match ← Generator.progress address .nothing with
  | .yielded item =>
    let v ← Action.ask f [item]
    Action.ask (.arrowOf (.traversing address f (collected ++ [v]))) []
  | .returned _ => collectAll collected

/-- Like `collectAll`, but carries a tuple. -/
def tupleAll (programs : List Value) : Action Value := do
  map (← collectAll programs) (.arrowOf .asTuple)

def asTupleBody (arguments : Arguments Value) : Action Value :=
  Action.takeOptional "iterable" (.tuple 0 []) arguments fun vs => do
    match vs with
    | .tuple tag items => return .tuple tag items
    | vs => return .tuple 0 (← vs.items)

end AlgebraicEffects.Program
