import AlgebraicEffects.Handler.Basic
import AlgebraicEffects.Program.Collect

/-!
Output: the effect `print`, answered nothing.

Where an implementation resumes relative to its own action decides the order: acting first gives the
order of the program, resuming first the reverse.
-/

set_option autoImplicit false

namespace AlgebraicEffects.Output

/-- The name of the effect. -/
def printName : String := "print"

/-- The operation that emits a message. -/
def print (message : Value) : Value := .bare printName [message]

/-- A handler that gives each message to the sink and then resumes. -/
def printHandler (sink : Value) : Action Value :=
  if sink.isCallable then return Handler.ofFunctions [(printName, .emitTo sink)] none
  else .fail .sinkNotCallable

/-- A handler that resumes first and emits each message again afterwards. -/
def reversePrintHandler : Value := Handler.ofFunctions [(printName, .reemit)] none

/-- A handler under which a program ends with its value and the tuple of its messages. -/
def collectPrintHandler : Value :=
  Handler.ofFunctions [(printName, .gather false)] (some (.paired false))

/-- Appends a line to the standard output. -/
def writeLine (line : String) : Action Unit :=
  Action.update fun s => { s with output := s.output ++ line ++ "\n" }

/-- The sink that writes the plain text of each of its arguments on one line. -/
def standardOutputBody (call : Arguments Value) : Action Value := do
  let bound ← Action.accept ((Signature.required []).withRest) call
  writeLine (" ".intercalate (← bound.rest.mapM Action.plainText))
  return .nothing

/-- Gives the message to the sink, then resumes. -/
def emitToBody (sink : Value) (call : Arguments Value) : Action Value :=
  Action.takeTwo "message" "resume" call fun message resume => do
    let _ ← Action.ask sink [message]
    Action.ask resume []

/-- Resumes, then emits the message behind the rest of the program. -/
def reemitBody (call : Arguments Value) : Action Value :=
  Action.takeTwo "message" "resume" call fun message resume => do
    Program.graft (← Action.ask resume []) (.arrowOf (.reemitted message))

/-- Emits the message and keeps the value. -/
def reemittedBody (message : Value) (call : Arguments Value) : Action Value :=
  Action.takeOne "value" call fun v => Program.map (print message) (.arrowOf (.constant v))

/-- Resumes, and puts the message in front of those gathered behind it. -/
def gatherBody (call : Arguments Value) : Action Value :=
  Action.takeTwo "message" "resume" call fun message resume => do
    Program.map (← Action.ask resume []) (.arrowOf (.gathered message))

/-- Puts the message in front of a pair's second part. -/
def gatheredBody (message : Value) (call : Arguments Value) : Action Value :=
  Action.takeOne "result" call fun pair => do
    let value ← pair.index (.int 0)
    let messages ← (← pair.index (.int 1)).items
    return .tuple 0 [value, .tuple 0 (message :: messages)]

/-- Pairs a value with no messages. -/
def pairedBody (call : Arguments Value) : Action Value :=
  Action.takeOne "value" call fun v => return .tuple 0 [v, .tuple 0 []]

end AlgebraicEffects.Output
