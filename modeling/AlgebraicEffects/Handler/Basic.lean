import AlgebraicEffects.Replay.Memo

/-!
Handlers.

A handler is a table from effect names to implementations, with an optional transform for leaves.
Evaluating a tree under it has three rules: a leaf is transformed; an operation in the table is
given to its implementation, together with the continuation under the same handler; any other
operation is forwarded, with its continuation under the same handler.
-/

set_option autoImplicit false

namespace AlgebraicEffects.Handler

/-- Implementations by effect name, in the order in which they were given. -/
abbrev Table := List (String × Value)

/-- Evaluates a program under a handler. -/
def evaluate (table : Table) (atLeaf : Option Value) (program : Value) : Action Value :=
  match Program.lift program with
  | .operation _ name params resume =>
    let continuation := Value.arrowOf (.under table atLeaf resume)
    match table.lookup name with
    | none => return .operation 0 name params continuation
    | some implementation =>
      if implementation.isGeneratorFunction then do
        let memo ← Replay.allocateMemo
        let params ← Action.identifyAll (.of params)
        Replay.build (.arrowOf (.remembering memo implementation params.positional continuation))
          (.tuple 0 []) [] (.tuple 0 [])
      else Replay.build implementation (.tuple 0 (params ++ [continuation])) [] (.tuple 0 [])
  | .leaf tag v =>
    match atLeaf with
    | none => return .leaf tag v
    | some f => Program.lift <$> Action.ask f [v]
  | v => return v

/-- The continuation of an operation under a handler. -/
def underBody (table : Table) (atLeaf : Option Value) (resume : Value) (call : Arguments Value) :
    Action Value :=
  Action.takeOptional "answer" .nothing call fun answer => do
    evaluate table atLeaf (← Action.ask resume [answer])

/-- The table of a list of entries: names are texts and implementations callable. -/
def tableOf : List (Value × Value) → Action Table
  | [] => return []
  | (.text name, implementation) :: es =>
    if implementation.isCallable then do return (name, implementation) :: (← tableOf es)
    else .fail (.implementationNotCallable name)
  | (v, _) :: _ => .fail (.tableNameNotText v.typeName)

/-- A handler from entries and a leaf transform, which may be nothing. -/
def ofEntries (entries : List (Value × Value)) (atLeaf : Value) : Action Value := do
  let table ← tableOf entries
  match atLeaf with
  | .nothing => return .handler 0 table none
  | f => if f.isCallable then return .handler 0 table (some f) else .fail .leafTransformNotCallable

/-- The entry that a model uses for its leaf transform. -/
def leafEntry : String := "return"

/-- The entries with implementations put under their names. -/
def overlaid (entries : List (Value × Value)) (named : List (String × Value)) :
    List (Value × Value) :=
  named.foldl (fun es (n, i) => Value.putUnderText n i es) entries

/-- A handler from a model and named implementations. A leaf transform may stand in the model or be
given beside it, but not both. -/
def ofModel (model atLeaf : Value) (named : List (String × Value)) : Action Value := do
  let entries ← model.entriesIfAny
  let atLeaf ← match Value.underText leafEntry entries with
    | none => pure atLeaf
    | some f =>
      match atLeaf with
      | .nothing => pure f
      | _ => .fail .leafTransformTwice
  ofEntries (overlaid (Value.withoutText leafEntry entries) named) atLeaf

/-- A handler with further or other implementations. -/
def extend (table : Table) (atLeaf : Option Value) (named : List (String × Value)) : Action Value :=
  ofEntries (overlaid (table.map fun (n, i) => (Value.text n, i)) named) (atLeaf.getD .nothing)

/-- Evaluates a program under a handler, or under a model with an optional leaf transform. -/
def handle (program model atLeaf : Value) : Action Value :=
  match model with
  | .handler _ table transform =>
    match atLeaf with
    | .nothing => evaluate table transform program
    | _ => .fail .leafTransformWithHandler
  | model => do
    match ← ofModel model atLeaf [] with
    | .handler _ table transform => evaluate table transform program
    | _ => .fault .badType

/-- A handler of the library that exists once, with its identity. -/
def standing (tag : Nat) (table : List (String × Function)) (atLeaf : Option Function) : Value :=
  .handler tag (table.map fun (n, f) => (n, .arrowOf f)) (atLeaf.map .arrowOf)

/-- A new handler of the library: implementations by name and a leaf transform. -/
def ofFunctions (table : List (String × Function)) (atLeaf : Option Function) : Value :=
  standing 0 table atLeaf

/-- Applies handlers one after the other, each of them read when its turn comes. -/
def applyTurns (program : Value) : List (Action Value) → Action Value
  | [] => return Program.lift program
  | turn :: turns => do applyTurns (← Action.ask (← turn) [Program.lift program]) turns

/-- Applies handlers one after the other, the innermost first. -/
def applyAll (program : Value) (handlers : List Value) : Action Value :=
  applyTurns program (handlers.map .done)

theorem applyAll_nil (program : Value) : applyAll program [] = .done (Program.lift program) := rfl

theorem applyAll_cons (program h : Value) (hs : List Value) :
    applyAll program (h :: hs) =
      (Action.ask h [Program.lift program]).bind fun next => applyAll next hs := rfl

/-- Applies handlers as they are given. A generator is asked for each one when the one before has
been applied. -/
def applyEach (program handlers : Value) : Action Value :=
  match handlers with
  | .generator address _ => Action.ask (.arrowOf (.handling address)) [Program.lift program]
  | handlers => do applyTurns program (← handlers.turns)

/-- Goes on with the next handler of a generator. -/
def handlingBody (address : Nat) (call : Arguments Value) : Action Value :=
  Action.takeOne "program" call fun program => do
    match ← Generator.progress address .nothing with
    | .yielded h =>
      let next ← Action.ask h [program]
      Action.ask (.arrowOf (.handling address)) [Program.lift next]
    | .returned _ => return program

def stackBody (handlers : List Value) (call : Arguments Value) : Action Value :=
  Action.takeOne "program" call fun program => applyAll program handlers

end AlgebraicEffects.Handler
