import AlgebraicEffects.Host.Heap
import AlgebraicEffects.Value.Basic

/-!
An event loop on a virtual clock.

Callbacks that are ready run first-in first-out; timers wait for their due time and come due in the
order of their due times, those due together in the order of their creation. A turn of the loop
moves the due timers behind the ready callbacks and runs exactly those. When nothing is ready the
clock jumps to the next due time.

The loop counts the registrations that have not finished and keeps the first failure of a callback. A
registration is counted before the loop takes it, so one that is refused then stays counted.
-/

set_option autoImplicit false

namespace AlgebraicEffects

structure Registration where
  callback : Value
  arguments : List Value

structure Timer where
  due : Float
  sequence : Nat
  registration : Registration

/-- A timer comes before another one that is due later, or due at the same time and made later. -/
def Timer.before (a b : Timer) : Bool :=
  if a.due == b.due then a.sequence < b.sequence else a.due < b.due

structure EventLoop where
  now : Float
  ready : List Registration
  timers : Heap Timer
  timerCounter : Nat
  /-- Registrations that have been taken and whose callback has not finished. -/
  outstanding : Nat
  failure : Option Failure
  isClosed : Bool
  /-- Registrations that were counted and then refused. -/
  refused : Nat
  /-- Cleared when a registration is counted, set when the count comes to nothing. -/
  isIdle : Bool

namespace EventLoop

def starting : EventLoop := ⟨0, [], .empty, 0, 0, none, false, 0, true⟩

/-- The count of the loop. -/
def counted (l : EventLoop) : Nat := l.outstanding + l.refused

/-- The width within which a timer counts as due. -/
def resolution : Float := 1e-9

/-- Registers a callback for the next turn. -/
def callSoon (l : EventLoop) (r : Registration) : EventLoop :=
  { l with ready := l.ready ++ [r], outstanding := l.outstanding + 1, isIdle := false }

/-- Registers a callback for the time `due`. -/
def callAt (l : EventLoop) (due : Float) (r : Registration) : EventLoop :=
  { l with
    timers := l.timers.push Timer.before ⟨due, l.timerCounter, r⟩
    timerCounter := l.timerCounter + 1
    outstanding := l.outstanding + 1
    isIdle := false }

/-- A registration has been counted and is not taken. -/
def refuse (l : EventLoop) : EventLoop := { l with refused := l.refused + 1, isIdle := false }

/-- The clock after waiting for the next timer, if nothing is ready now. -/
def advanced (l : EventLoop) : Float :=
  match l.ready, l.timers.peek? with
  | [], some t => if l.now < t.due then t.due else l.now
  | _, _ => l.now

/-- A timer is due unless it is due later; what is due at no number is due at once. -/
def isDue (now : Float) (t : Timer) : Bool := t.due <= now || !(now + resolution <= t.due)

/-- Takes the timers that are due from the front of the queue, at most `count` of them. -/
def takeDue (now : Float) : Nat → Heap Timer → List Registration × Heap Timer
  | 0, timers => ([], timers)
  | count + 1, timers =>
    match timers.pop? Timer.before with
    | none => ([], timers)
    | some (t, rest) =>
      if isDue now t then
        let (due, rest) := takeDue now count rest
        (t.registration :: due, rest)
      else ([], timers)

/-- The callbacks of a turn that begins at the time `now`, and the loop on which they run. -/
def beginTurnAt (l : EventLoop) (now : Float) : List Registration × EventLoop :=
  let (due, timers) := takeDue now l.timers.size l.timers
  (l.ready ++ due, { l with now := now, ready := [], timers := timers })

/-- The callbacks of the next turn. The clock is advanced first if nothing is ready. -/
def beginTurn (l : EventLoop) : List Registration × EventLoop := l.beginTurnAt l.advanced

/-- One registration has finished, in the given way; only the first failure is kept. -/
def finish (l : EventLoop) (failure : Option Failure) : EventLoop :=
  { l with
    outstanding := l.outstanding - 1
    failure := l.failure <|> failure
    isIdle := l.isIdle || l.outstanding - 1 + l.refused = 0 }

end EventLoop

end AlgebraicEffects
