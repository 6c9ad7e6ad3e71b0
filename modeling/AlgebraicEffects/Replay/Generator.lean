import AlgebraicEffects.Program.Basic

/-!
Generator objects.

A generator object runs its body up to the next `yield`, hands out the yielded value and waits for
an answer. It can be resumed once from each point: what it is about to do lives in the store and is
overwritten as it goes. A body that returns ends its generator with the failure `exhausted`, which
carries the returned value and which no script can raise.
-/

set_option autoImplicit false

namespace AlgebraicEffects

/-- The scope with one variable bound anew. -/
def Scope.set (x : String) (v : Value) (s : Scope) : Scope :=
  (x, v) :: s.filter fun (y, _) => y != x

/-- The scope after an answer has been received. -/
def Scope.receive (x : Option String) (answer : Value) (s : Scope) : Scope :=
  match x with
  | some x => Scope.set x answer s
  | none => s

namespace Generator

def allocate (state : GeneratorState) : Action Nat :=
  .read fun s =>
    .write (fun s => { s with generators := s.generators.push state }) (.done s.generators.size)

def setState (address : Nat) (state : GeneratorState) : Action Unit :=
  Action.update fun s => { s with generators := s.generators.setIfInBounds address state }

def state (address : Nat) : Action GeneratorState :=
  Action.inspect fun s => s.generators.getD address .finished

/-- Marks a generator as running while it takes its next step, and as finished if the step fails. -/
def guarded (address : Nat) (step : Action Value) : Action Value := do
  setState address .running
  step.recover fun f => do
    setState address .finished
    .fail f

/-- Runs a scripted body to its next `yield`. The answer is ignored by a body that has not started.
-/
def advanceBody (address : Nat) (answer : Value) : Action Value := do
  match ← state address with
  | .fresh scope body =>
    guarded address (Action.ask (.arrowOf (.proceeding address scope [.block body])) [])
  | .suspended x scope frames =>
    guarded address
      (Action.ask (.arrowOf (.proceeding address (Scope.receive x answer scope) frames)) [])
  | .finished => .fail (.exhausted .nothing)
  | _ => .fault .badValue

/-- Notes an answer in a recording; calls are counted anew after it. -/
def record (recording : Nat) (answer : Value) : Action Unit :=
  Action.update fun s =>
    { s with
      recordings := s.recordings.modify recording fun r =>
        { r with received := r.received ++ [answer], calls := 0 } }

/-- Runs a generator to its next `yield`. A recording generator passes on what the generator inside
it yields and notes each answer before it hands it on. -/
def advance (address : Nat) (answer : Value) : Action Value := do
  match ← state address with
  | .recording rec implementation arguments =>
    guarded address do
      match ← Action.ask implementation arguments with
      | .generator inner _ =>
        let v ← advanceBody inner .nothing
        setState address (.recordingSuspended rec inner)
        return v
      | _ => .fault .badType
  | .recordingSuspended rec inner =>
    guarded address do
      record rec answer
      let v ← advanceBody inner answer
      setState address (.recordingSuspended rec inner)
      return v
  | _ => advanceBody address answer

/-- How a generator answered to being advanced. -/
inductive Progress where
  | yielded (v : Value)
  | returned (v : Value)

def progress (address : Nat) (answer : Value) : Action Progress := do
  match ← (advance address answer).attempt with
  | .ok v => return .yielded v
  | .error (.exhausted v) => return .returned v
  | .error f => .fail f

/-- Adds the pairs that a generator yields; it is asked for the next one when the one before has
been added. -/
def pairingBody (address : Nat) (entries : List (Value × Value)) : Action Value := do
  match ← progress address .nothing with
  | .yielded v =>
    Action.ask (.arrowOf (.pairing address (← Value.addPair entries v))) []
  | .returned _ => return .dict 0 entries

/-- Adds what a generator yields to a list; it is asked for the next item when the one before has
been added. -/
def growingBody (list : Value) (address : Nat) : Action Value := do
  match ← progress address .nothing, list with
  | .yielded v, .list tag items =>
    let now ← Action.itemsNow tag items
    Action.update fun s => s.writeList tag (now ++ [v])
    Action.ask (.arrowOf (.growing list address)) []
  | _, _ => return .nothing

/-- Runs a generator to its end and lists what it yields. -/
def exhaustingBody (address : Nat) (collected : List Value) : Action Value := do
  match ← progress address .nothing with
  | .yielded v => Action.ask (.arrowOf (.exhausting address (collected ++ [v]))) []
  | .returned _ => return .list 0 collected

end Generator

end AlgebraicEffects
