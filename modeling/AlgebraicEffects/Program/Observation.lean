import AlgebraicEffects.Replay.Generator

/-!
Observations of a program.

A trace follows one path, answering each operation in turn; an exploration opens the tree to a
depth, answering every operation with each of the given answers.
-/

set_option autoImplicit false

namespace AlgebraicEffects.Program

/-- Follows a program. Each operation gets the next answer, or nothing once the answers have run
out; the result is the tuple of the operations that were met and the final value. -/
def traceFrom (program : Value) (answers records : List Value) : Action Value :=
  match lift program with
  | .operation _ name params resume => do
    let record := Value.tuple 0 [.text name, .tuple 0 params]
    let next ← continueWith resume (answers.headD .nothing)
    Action.ask (.arrowOf (.tracing answers.tail (records ++ [record]))) [next]
  | .leaf _ v => return .tuple 0 [.tuple 0 records, v]
  | v => return .tuple 0 [.tuple 0 records, v]

def tracingBody (answers records : List Value) (call : Arguments Value) : Action Value :=
  Action.takeOne "program" call fun program => traceFrom program answers records

/-- What is below an operation once it is answered, to one level less. -/
def exploreBelow (answers depth resume answer : Value) : Action Value := do
  let next ← continueWith resume answer
  Action.ask (.arrowOf (.exploring answers (← Value.sub depth (.int 1)))) [next]

/-- What is below an operation for each of the answers. Those of a generator are drawn one by one
and shared by the whole exploration. -/
def exploreAll (answers depth resume : Value) : Action Value :=
  match answers with
  | .generator address name =>
    Action.ask (.arrowOf (.exploringDrawn address name resume depth [])) []
  | answers => do
    let below ← (← answers.turns).mapM fun turn => do exploreBelow answers depth resume (← turn)
    return .list 0 below

/-- Opens a program to a depth with every answer at every operation. A depth that is never zero
opens it to its leaves. -/
def explore (program answers depth : Value) : Action Value :=
  match lift program with
  | .operation _ name params resume => do
    if ← Value.equal depth (.int 0) then return .tuple 0 [.text "cut", .text name, .tuple 0 params]
    else
      return .tuple 0
        [.text "node", .text name, .tuple 0 params, ← exploreAll answers depth resume]
  | .leaf _ v => return .tuple 0 [.text "leaf", v]
  | v => return .tuple 0 [.text "leaf", v]

def exploringBody (answers depth : Value) (call : Arguments Value) : Action Value :=
  Action.takeOne "program" call fun program => explore program answers depth

/-- Goes on with the next answer of a generator. -/
def exploringDrawnBody (address : Nat) (name : String) (resume depth : Value)
    (collected : List Value) : Action Value := do
  match ← Generator.progress address .nothing with
  | .yielded answer =>
    let below ← exploreBelow (.generator address name) depth resume answer
    Action.ask (.arrowOf (.exploringDrawn address name resume depth (collected ++ [below]))) []
  | .returned _ => return .list 0 collected

end AlgebraicEffects.Program
