import AlgebraicEffects.Handler.Basic
import AlgebraicEffects.Program.Collect

/-!
State: the effects `get`, answered the current state, and `put`, answered nothing.

The handler keeps no state anywhere. A leaf and every implementation give a function from the
incoming state to the rest of the program, and those functions are chained; so each resumption sees
exactly the state that is threaded into it.
-/

set_option autoImplicit false

namespace AlgebraicEffects.State

def getName : String := "get"

def putName : String := "put"

/-- The operation that reads the state. -/
def get : Value := .bare getName []

/-- The operation that replaces the state. -/
def put (v : Value) : Value := .bare putName [v]

/-- Replaces the state by its image under `f` and answers the image. -/
def modify (f : Value) : Action Value := Program.graft get (.arrowOf (.modifying f))

def modifyingBody (f : Value) (call : Arguments Value) : Action Value :=
  Action.takeOne "old" call fun old => do
    let new ← Action.identify (← Action.ask f [old])
    Program.map (put new) (.arrowOf (.constant new))

/-- The table of the state handler. -/
def table : List (String × Function) := [(getName, .getState), (putName, .putState)]

/-- A handler under which a program ends with a function from the state to its value, or to the pair
of its value and the final state. -/
def handler (withFinalState : Value) : Action Value := do
  return Handler.ofFunctions table (some (.finishState (← Action.truth withFinalState)))

/-- Runs a program from an initial state. -/
def run (program initial withFinalState : Value) : Action Value := do
  let paired ← Action.truth withFinalState
  let carrier ← Handler.evaluate (table.map fun (n, f) => (n, .arrowOf f))
    (some (.arrowOf (.finishState paired))) program
  Program.applyTo carrier [.leaf 0 initial]

def getStateBody (call : Arguments Value) : Action Value :=
  Action.takeOne "resume" call fun resume => return .arrowOf (.getAt resume)

/-- In a state, resumes with it and passes it on. -/
def getAtBody (resume : Value) (call : Arguments Value) : Action Value :=
  Action.takeOne "state" call fun s => do Program.applyTo (← Action.ask resume [s]) [.leaf 0 s]

def putStateBody (call : Arguments Value) : Action Value :=
  Action.takeTwo "value" "resume" call fun v resume => return .arrowOf (.putAt v resume)

/-- In any state, resumes and passes the new one on. -/
def putAtBody (v resume : Value) (call : Arguments Value) : Action Value :=
  Action.takeOne "_state" call fun _ => do
    Program.applyTo (← Action.ask resume []) [.leaf 0 v]

def finishStateBody (paired : Bool) (call : Arguments Value) : Action Value :=
  Action.takeOne "value" call fun v => return .arrowOf (.finishAt paired v)

/-- In the final state, answers the value, with the state if that is wanted. -/
def finishAtBody (paired : Bool) (v : Value) (call : Arguments Value) : Action Value :=
  Action.takeOne (if paired then "state" else "_state") call fun s =>
    return if paired then .tuple 0 [v, s] else v

end AlgebraicEffects.State
