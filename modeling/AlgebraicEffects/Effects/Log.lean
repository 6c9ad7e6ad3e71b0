import AlgebraicEffects.Effects.Output

/-!
Logging: the effect `log`, answered nothing.

Messages are either gathered beside the value, so that every branch carries its own, or sent to the
log at a level that the log knows.
-/

set_option autoImplicit false

namespace AlgebraicEffects.Log

/-- The name of the effect. -/
def logName : String := "log"

/-- The operation that logs a message. -/
def log (message : Value) : Value := .bare logName [message]

/-- A handler under which a program ends with its value and the tuple of its messages. -/
def writerHandler : Value := Handler.ofFunctions [(logName, .gather true)] (some (.paired true))

/-- The levels that the log knows. -/
def levels : List String :=
  ["TRACE", "DEBUG", "INFO", "SUCCESS", "WARNING", "ERROR", "CRITICAL", "AUDIT"]

/-- A handler that sends each message to the log and then resumes. -/
def loggerHandler (level : Value) : Action Value :=
  match level with
  | .text name =>
    if levels.contains name then return Handler.ofFunctions [(logName, .logAt name)] none
    else .fault .badValue
  | _ => .fault .badType

/-- Records the message, then resumes. -/
def logAtBody (level : String) (call : Arguments Value) : Action Value :=
  Action.takeTwo "message" "resume" call fun message resume => do
    Action.log level "program" (← Action.shown message).plain
    Action.ask resume []

end AlgebraicEffects.Log
