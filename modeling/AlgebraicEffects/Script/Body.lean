import AlgebraicEffects.Script.Eval

/-!
Generator bodies.

A body is run one step at a time on a stack of frames: the statements still to run, the loops around
them and the attempts that guard them. A `yield` stores the frames and hands its value out; the end
of the frames, or a `return`, ends the generator; a failure goes to the innermost attempt.
-/

set_option autoImplicit false

namespace AlgebraicEffects.Generator

/-- Goes on with a body. -/
def go (address : Nat) (scope : Scope) (frames : List Frame) : Action Value :=
  Action.ask (.arrowOf (.proceeding address scope frames)) []

/-- Ends a body with a value. -/
def finishWith (v : Value) : Action Value := .fail (.exhausted v)

/-- The innermost attempt: its variable, its recovery and the frames around it. -/
def recovery? : List Frame → Option (String × List Stmt × List Frame)
  | [] => none
  | .guarded x recovery :: fs => some (x, recovery, fs)
  | _ :: fs => recovery? fs

/-- A failure in a body. No body can pass on a failure that would look like its own end. -/
def raiseIn (address : Nat) (scope : Scope) (frames : List Frame) (f : Failure) : Action Value :=
  match recovery? frames with
  | some (x, recovery, fs) => do
    go address (Scope.set x (← Action.identify (.failure f)) scope) (.block recovery :: fs)
  | none => if f.kind = .exhausted then .fail .generatorRaisedStop else .fail f

/-- Evaluates an expression of a body and goes on with its value. -/
def evaluate (address : Nat) (scope : Scope) (frames : List Frame) (e : Expr)
    (next : Value → Action Value) : Action Value := do
  match ← (e.eval scope).attempt with
  | .ok v => next v
  | .error f => raiseIn address scope frames f

/-- Starts a loop over the items of a value; those of a generator are drawn one by one. -/
def loopOver (address : Nat) (scope : Scope) (frames : List Frame) (x : String)
    (body : List Stmt) (v : Value) : Action Value := do
  match v with
  | .generator source _ => go address scope (.drawn x source body :: frames)
  | v =>
    match ← v.items.attempt with
    | .ok items => go address scope (.each x v.containerTag 0 items body :: frames)
    | .error f => raiseIn address scope frames f

/-- Goes on with the next item of a loop; of a list that has been written into meanwhile, with the
one that it holds now. A dictionary that has got further keys meanwhile ends the loop. -/
def next (address : Nat) (scope : Scope) (frames : List Frame) (x : String)
    (tag position : Nat) (items : List Value) (body : List Stmt) : Action Value := do
  if ← Action.inspect fun s => s.dictHasGrown tag (position + items.length) then
    return ← raiseIn address scope frames (.fault .runtime)
  match ← Action.inspect fun s => s.itemsFrom tag position items with
  | [] => go address scope frames
  | v :: vs =>
    go address (Scope.set x v scope) (.block body :: .each x tag (position + 1) vs body :: frames)

/-- Goes on with the next item of a loop over a generator. -/
def draw (address : Nat) (scope : Scope) (frames : List Frame) (x : String) (source : Nat)
    (body : List Stmt) : Action Value := do
  match ← (progress source .nothing).attempt with
  | .ok (.yielded v) =>
    go address (Scope.set x v scope) (.block body :: .drawn x source body :: frames)
  | .ok (.returned _) => go address scope frames
  | .error f => raiseIn address scope frames f

/-- Runs one statement, with the frames that follow it. -/
def execute (address : Nat) (scope : Scope) (frames : List Frame) : Stmt → Action Value
  | .yield x e => evaluate address scope frames e fun v => do
    setState address (.suspended x scope frames)
    return v
  | .set x e => evaluate address scope frames e fun v => go address (Scope.set x v scope) frames
  | .run e => evaluate address scope frames e fun _ => go address scope frames
  | .finish e => evaluate address scope frames e finishWith
  | .branch condition yes no => evaluate address scope frames condition fun v => do
    go address scope (.block (if ← Action.truth v then yes else no) :: frames)
  | .each x items body =>
    evaluate address scope frames items (loopOver address scope frames x body)
  | .loop condition body => go address scope (.loop condition body :: frames)
  | .attempt body x recovery => go address scope (.block body :: .guarded x recovery :: frames)

/-- Takes one step of a body. -/
def proceedingBody (address : Nat) (scope : Scope) : List Frame → Action Value
  | [] => finishWith .nothing
  | .block [] :: fs => go address scope fs
  | .block (s :: ss) :: fs => execute address scope (.block ss :: fs) s
  | .each x tag position items body :: fs => next address scope fs x tag position items body
  | .drawn x source body :: fs => draw address scope fs x source body
  | .loop condition body :: fs => evaluate address scope fs condition fun v => do
    if ← Action.truth v then go address scope (.block body :: .loop condition body :: fs)
    else go address scope fs
  | .guarded _ _ :: fs => go address scope fs

end AlgebraicEffects.Generator
