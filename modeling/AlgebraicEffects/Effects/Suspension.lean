import AlgebraicEffects.Handler.Basic
import AlgebraicEffects.Host.Scheduling

/-!
Suspension: the effect `suspend`, whose continuation is handed to a host, and `now`, answered the
host's time.

`suspend start` ends the evaluation of the current flow after calling `start` with the continuation
and the host. Waiting, ending a flow, forking and running two programs side by side are programs
over it.
-/

set_option autoImplicit false

namespace AlgebraicEffects.Suspension

def suspendName : String := "suspend"

def nowName : String := "now"

private def suspendWith (f : Function) : Value := .bare suspendName [.arrowOf f]

/-- The operation that gives its continuation and the host to `start`. -/
def suspend (start : Value) : Action Value :=
  if start.isCallable then return .bare suspendName [start] else .fail .startNotCallable

/-- The operation that reads the host's clock. -/
def now : Value := .bare nowName []

/-- Goes on after a number of time units that is not negative. -/
def wait (delay : Value) : Action Value := do
  if ← Value.less delay (.int 0) then .fail (.waitNegative (← Action.plainText delay))
  else return suspendWith (.waitStart delay)

/-- Ends the flow. -/
def exit : Value := suspendWith .exitStart

/-- Goes on at once with false, and from the host's queue with true. -/
def fork : Value := suspendWith .forkStart

/-- Runs two programs as two flows and goes on with the pair of their values. -/
def par (left right : Value) : Action Value :=
  Program.graft (suspendWith .allocateCells) (.arrowOf (.parStart left right))

def waitStartBody (delay : Value) (call : Arguments Value) : Action Value :=
  Action.takeTwo "resume" "host" call fun resume host => Host.callLater host delay resume []

def exitStartBody (call : Arguments Value) : Action Value :=
  Action.takeTwo "resume" "host" call fun _ _ => return .nothing

def forkStartBody (call : Arguments Value) : Action Value :=
  Action.takeTwo "resume" "host" call fun resume host => do
    let _ ← Host.callSoon host resume [.bool true]
    let _ ← Action.ask resume [.bool false]
    return .nothing

/-- Resumes with two new cells, one for each flow of an evaluation of `par`. -/
def allocateCellsBody (call : Arguments Value) : Action Value :=
  Action.takeTwo "resume" "host" call fun resume _ => do
    let _ ← Action.ask resume [.list 0 [.notAvailable, .notAvailable]]
    return .nothing

/-- Both flows share their cells, which are whatever the first suspension was answered. -/
def parStartBody (left right : Value) (call : Arguments Value) : Action Value :=
  Action.takeOne "cells" call fun cells => do
    Program.graft fork (.arrowOf (.parForked left right (← Action.identify cells)))

def parForkedBody (left right cells : Value) (call : Arguments Value) : Action Value :=
  Action.takeOne "forked" call fun forked => do
    if ← Action.truth forked then Program.graft right (.arrowOf (.parSettle 1 cells))
    else Program.graft left (.arrowOf (.parSettle 0 cells))

/-- Writes a value into one of the cells. -/
def store (index : Nat) (cells value : Value) : Action Unit :=
  match cells with
  | .list tag items => do
    let items ← Action.itemsNow tag items
    if index < items.length then
      Action.update fun s => s.writeList tag (items.set index value)
    else .fault .noIndex
  | .dict tag entries => do
    let entries ← Value.addEntry (← Action.entriesNow tag entries) (.int index) value
    Action.update fun s => s.writeDict tag entries
  | _ => .fault .badType

/-- What a flow goes on with that has found these values in the cells: the flow that finds the other
value stored delivers both. -/
def deliver : Value → Value → Value
  | .notAvailable, _ | _, .notAvailable => exit
  | l, r => .leaf 0 (.tuple 0 [l, r])

/-- Stores one value and goes on if both are there. -/
def settle (index : Nat) (cells value : Value) : Action Value := do
  store index cells (← Action.identify value)
  return deliver (← cells.index (.int 0)) (← cells.index (.int 1))

def parSettleBody (index : Nat) (cells : Value) (call : Arguments Value) : Action Value :=
  Action.takeOne "value" call fun v => settle index cells v

/-- A program in which nothing is left to handle, or else a failure that names what is left. -/
def ensureHandled (program : Value) : Action Value :=
  match Program.lift program with
  | .operation _ name params _ => do
    .fail (← Action.unhandled (.text name) (.tuple 0 params))
  | p => return p

/-- A handler against a host. It has to be the outermost one. -/
def handler (host : Value) : Value :=
  Handler.ofFunctions [(suspendName, .suspendOn host), (nowName, .nowOf host)] none

/-- Starts the suspension; the flow ends here and goes on when the host resumes it. -/
def suspendOnBody (host : Value) (call : Arguments Value) : Action Value :=
  Action.takeTwo "start" "resume" call fun start resume => do
    let _ ← Action.ask start [.arrowOf (.resumeChecked resume), host]
    return .leaf 0 .nothing

/-- Resumes and insists that nothing is left to handle. -/
def resumeCheckedBody (resume : Value) (call : Arguments Value) : Action Value :=
  Action.takeOptional "answer" .nothing call fun answer => do
    ensureHandled (← Action.ask resume [answer])

def nowOfBody (host : Value) (call : Arguments Value) : Action Value :=
  Action.takeOne "resume" call fun resume => do Action.ask resume [← Host.time host]

end AlgebraicEffects.Suspension
