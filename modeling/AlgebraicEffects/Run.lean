import AlgebraicEffects.Effects.Chance
import AlgebraicEffects.Effects.Environment
import AlgebraicEffects.Effects.Output
import AlgebraicEffects.Effects.Suspension

/-!
Runners: from a program and its handlers to a result.

Handlers are given innermost first. An operation that is left when all of them have run is a failure
of its own, never a partial value. One runner passes failures on, the others capture them in an
outcome, which also lists every value that reached the end of the program.
-/

set_option autoImplicit false

namespace AlgebraicEffects.Run

def logComponent : String := "run"

def debug (message : String) : Action Unit := Action.log "DEBUG" logComponent message

/-- The outcome of a run that ended with values. -/
def succeeded (value : Value) (values : List Value) : Value :=
  .outcome 0 (.ok 0 value) (.tuple 0 values)

/-- The outcome of a run that failed after some values. -/
def failed (f : Failure) (values : List Value) : Action Value := do
  return .outcome 0 (.err 0 (← Action.identify (.failure f))) (.tuple 0 values)

/-- Depth of calls that the ambient language allows anyway. -/
def ambientDepth : Number := .int 400000

/-- The least depth that is too great to be asked for. -/
def depthBound : Int := 0x80000000

/-- A limit on the depth of calls has to be positive, and a machine integer wherever it matters. -/
def checkRecursionLimit (limit : Value) : Action Unit := do
  match limit with
  | .nothing => pure ()
  | limit =>
    if ← Value.atMost limit (.int 0) then .fail .recursionLimitNotPositive
    match limit with
    | .int n => if depthBound ≤ n then .fault .overflow
    | .float _ x => if !(Number.float x).less ambientDepth then .fault .badType
    | _ => pure ()

/-- Evaluates a program under handlers and answers its value. -/
def run (program handlers limit : Value) : Action Value := do
  checkRecursionLimit limit
  match ← Handler.applyEach program handlers with
  | .operation _ name params _ =>
    debug ("unhandled effect " ++ Text.quoted name ++ " reached the top level")
    .fail (← Action.unhandled (.text name) (.tuple 0 params))
  | .leaf _ v => return v
  | v => return v

/-- Like `run`, but captures the failure. -/
def runCaught (program handlers limit : Value) : Action Value := do
  match ← (run program handlers limit).attempt with
  | .ok v =>
    let v ← Action.identify v
    return succeeded v [v]
  | .error f =>
    debug ("sync_run failed: " ++ (← Action.shown (.failure f)).quoted)
    failed f []

/-- Notes a value that reached the end of the program. -/
def recordInBody (address : Nat) (call : Arguments Value) : Action Value :=
  Action.takeOne "value" call fun v => do
    let v ← Action.identify v
    Action.complete address v
    return .leaf 0 v

/-- The outcome of a run whose flows have all ended: the first value decides. -/
def settle : List Value → Action Value
  | [] => failed .noResult []
  | v :: vs => return succeeded v (v :: vs)

/-- Evaluates the flow that a run begins with, under the handlers and against the host. -/
def begin (program handlers host : Value) (completed : Nat) : Action Unit := do
  let tracked ← Program.graft program (.arrowOf (.recordIn completed))
  let stack := (← handlers.items) ++ [Suspension.handler host]
  let residual ← Handler.applyAll tracked stack
  let _ ← Suspension.ensureHandled residual

def completedAt (address : Nat) : Action (List Value) :=
  Action.inspect fun s => s.completedAt address

/-- Runs every task of a host; only an agenda can be driven. -/
def drainHost : Value → Action Value
  | .agenda a => Host.drain a
  | _ => Action.lacking "run"

/-- Evaluates a program that may suspend, driving an agenda until it is empty. -/
def runScheduled (program handlers scheduler limit : Value) : Action Value := do
  let host ←
    if ← Action.truth scheduler then pure scheduler else Host.newAgenda (.float 0 0) .nothing
  let completed ← Action.allocateCompleted
  checkRecursionLimit limit
  let drained ← Action.attempt do
    begin program handlers host completed
    drainHost host
  match drained with
  | .error f =>
    debug ("run_scheduled failed: " ++ (← Action.shown (.failure f)).quoted)
    failed f (← completedAt completed)
  | .ok executed =>
    let count ← Action.shown executed
    let now ← Action.shown (← Host.time host)
    debug ("scheduler drained after " ++ count.plain ++ " tasks at t=" ++ now.plain)
    settle (← completedAt completed)

/-- The outcome of a run on an event loop. A failure that escapes before the first turn decides at
once; otherwise the loop makes turns until it is idle. -/
def outcomeOnLoop (program handlers : Value) (loop : Nat) : Action Value := do
  let completed ← Action.allocateCompleted
  match ← (begin program handlers (.loopHost loop) completed).attempt with
  | .error f =>
    debug ("async_run failed: " ++ (← Action.shown (.failure f)).quoted)
    failed f (← completedAt completed)
  | .ok _ =>
    let _ ← Action.ask (.arrowOf (.turning loop)) []
    match (← Host.loopAt loop).failure with
    | some f => failed f (← completedAt completed)
    | none => settle (← completedAt completed)

/-- Evaluates a program that may suspend, on an event loop of its own. When the outcome is known the
loop makes a last turn and takes no callbacks any more. -/
def runOnLoop (program handlers : Value) : Action Value := do
  if ← Action.inspect (·.loopIsRunning) then .fault .runtime
  Action.update fun s => { s with loopIsRunning := true }
  let loop ← Host.newLoop
  let outcome ← outcomeOnLoop program handlers loop
  Host.closingTurn loop
  Host.updateLoop loop fun l => { l with isClosed := true }
  Action.update fun s => { s with loopIsRunning := false }
  return outcome

/-- Handlers for the common ambient effects, innermost first. -/
def preset (environment sink seed : Value) : Action Value := do
  return .list 0
    [← Environment.handler environment, ← Output.printHandler sink, ← Chance.handler seed]

end AlgebraicEffects.Run
