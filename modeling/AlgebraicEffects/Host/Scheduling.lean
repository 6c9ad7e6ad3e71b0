import AlgebraicEffects.Program.Basic

/-!
Hosts: what a suspended flow hands its continuation to.

A host is an agenda, which runs its tasks when it is told to, or an event loop, which runs its
callbacks turn by turn. Both take callbacks for later and tell their time.
-/

set_option autoImplicit false

namespace AlgebraicEffects.Host

def logComponent : String := "scheduler"

def debug (message : String) : Action Unit := Action.log "DEBUG" logComponent message

/-- The agenda at an address. -/
def agendaAt (address : Nat) : Action Agenda :=
  .read fun s =>
    match s.agendas[address]? with
    | some a => .done a
    | none => .fault .badType

def setAgenda (address : Nat) (a : Agenda) : Action Unit :=
  Action.update fun s => { s with agendas := s.agendas.setIfInBounds address a }

/-- A new agenda; a limit on its steps has to be a number that is not negative. -/
def newAgenda (startTime maxSteps : Value) : Action Value := do
  let startTime ← Action.identify startTime
  match maxSteps with
  | .nothing => pure ()
  | limit => if ← Value.less limit (.int 0) then .fail .maxStepsNegative
  .read fun s =>
    .write (fun s => { s with agendas := s.agendas.push (.starting startTime maxSteps) })
      (.done (.agenda s.agendas.size))

/-- A number of time units that is not negative. -/
def checkDelay (delay : Value) : Action Unit := do
  if ← Value.less delay (.int 0) then .fail (.delayNegative (← Action.plainText delay))

/-- Schedules a task `delay` after the present time of an agenda. -/
def callLaterOnAgenda (address : Nat) (delay callback : Value) (arguments : List Value) :
    Action Value := do
  checkDelay delay
  let a ← agendaAt address
  let due ← Action.identify (← Value.add a.currentTime delay)
  match due.number? with
  | some time =>
    setAgenda address (a.schedule time due.numberTag callback arguments)
    let shown ← Action.shown due
    debug ("scheduled task #" ++ toString a.sequenceCounter ++ " at t=" ++ shown.plain)
    return .nothing
  | none => .fault .badType

/-- Runs the next task of an agenda; answers whether there was one. -/
def step (address : Nat) : Action Bool := do
  let a ← agendaAt address
  match a.pop? with
  | none => return false
  | some (t, next) =>
    if a.atLimit then .fail (← Action.limitReached a.maxSteps)
    else
      setAgenda address next
      let due ← Action.shown t.dueTime
      debug ("running task #" ++ toString t.sequence ++ " at t=" ++ due.plain)
      let _ ← Action.ask t.callback t.arguments
      return true

/-- Runs tasks until none is left; answers how many have been run. -/
def drainingBody (address executed : Nat) : Action Value := do
  if ← step address then Action.ask (.arrowOf (.draining address (executed + 1))) []
  else return .int executed

def drain (address : Nat) : Action Value := drainingBody address 0

/-- The event loop at an address. -/
def loopAt (address : Nat) : Action EventLoop :=
  .read fun s =>
    match s.loops[address]? with
    | some l => .done l
    | none => .fault .badType

def updateLoop (address : Nat) (change : EventLoop → EventLoop) : Action Unit :=
  Action.update fun s => { s with loops := s.loops.modify address change }

def newLoop : Action Nat :=
  .read fun s =>
    .write (fun s => { s with loops := s.loops.push .starting }) (.done s.loops.size)

/-- A registration that has been counted already fails. -/
def refuse (address : Nat) (f : Failure) : Action Value := do
  updateLoop address (·.refuse)
  .fail f

/-- Registers a callback with a loop, which refuses it if it has been closed. -/
def register (address : Nat) (isClosed : Bool) (change : EventLoop → EventLoop) : Action Value := do
  if isClosed then refuse address (.fault .runtime)
  else
    updateLoop address change
    return .nothing

def callLaterOnLoop (address : Nat) (delay callback : Value) (arguments : List Value) :
    Action Value := do
  checkDelay delay
  let l ← loopAt address
  match ← (Value.add (.float 0 l.now) delay).attempt with
  | .ok (.float _ due) => register address l.isClosed (·.callAt due ⟨callback, arguments⟩)
  | .ok _ => refuse address (.fault .badType)
  | .error f => refuse address f

def callSoonOnLoop (address : Nat) (callback : Value) (arguments : List Value) : Action Value := do
  register address (← loopAt address).isClosed (·.callSoon ⟨callback, arguments⟩)

/-- Runs one callback, unless an earlier one has failed; either way it is finished afterwards. -/
def runRegistration (address : Nat) (r : Registration) : Action Unit := do
  match (← loopAt address).failure with
  | some _ => updateLoop address (·.finish none)
  | none =>
    match ← (Action.ask r.callback r.arguments).attempt with
    | .ok _ => updateLoop address (·.finish none)
    | .error f =>
      let f ← Action.caught f
      debug ("callback raised " ++ (← Action.shown (.failure f)).quoted)
      updateLoop address (·.finish (some f))

/-- One turn of a loop. -/
def turn (address : Nat) : Action Unit := do
  let (registrations, l) := (← loopAt address).beginTurn
  updateLoop address fun _ => l
  registrations.forM (runRegistration address)

/-- A turn made while the loop is being closed, during which the clock stands still. -/
def closingTurn (address : Nat) : Action Unit := do
  let l ← loopAt address
  let (registrations, l) := l.beginTurnAt l.now
  updateLoop address fun _ => l
  registrations.forM (runRegistration address)

/-- Turns of a loop until it is idle. -/
def turningBody (address : Nat) : Action Value := do
  if (← loopAt address).isIdle then return .nothing
  else
    turn address
    Action.ask (.arrowOf (.turning address)) []

/-- Schedules a callback on any host, `delay` from now. -/
def callLater (host delay callback : Value) (arguments : List Value) : Action Value :=
  match host with
  | .agenda a => callLaterOnAgenda a delay callback arguments
  | .loopHost l => callLaterOnLoop l delay callback arguments
  | _ => Action.lacking "call_later"

/-- Schedules a callback on any host, as soon as possible. -/
def callSoon (host callback : Value) (arguments : List Value) : Action Value :=
  match host with
  | .agenda a => callLaterOnAgenda a (.float 0 0) callback arguments
  | .loopHost l => callSoonOnLoop l callback arguments
  | _ => Action.lacking "call_soon"

/-- The time of any host. -/
def time (host : Value) : Action Value :=
  match host with
  | .agenda a => do return (← agendaAt a).currentTime
  | .loopHost l => do return .float 0 (← loopAt l).now
  | _ => Action.lacking "time"

end AlgebraicEffects.Host
