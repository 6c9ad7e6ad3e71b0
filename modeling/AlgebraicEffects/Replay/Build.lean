import AlgebraicEffects.Replay.Generator

/-!
Programs from generators, by replay.

A generator can be resumed once from each `yield`, a continuation any number of times. So the rest
of a generator is rebuilt for every answer: a fresh generator is made by the factory, fed the
answers of the path so far, and what it yields next is grafted onto the same construction for one
answer more.

Arguments and history are kept as they were given and read anew each time, so what can be read only
once is empty in a replay.
-/

set_option autoImplicit false

namespace AlgebraicEffects.Replay

open Generator (Progress)

/-- A generator after it has been fed answers. -/
inductive Fed where
  | yielded (v : Value)
  | returned (v : Value) (consumed : Nat)

/-- Feeds answers in order. `current` is what was yielded last, `consumed` how many have been fed.
-/
def feed (address : Nat) (current : Value) (consumed : Nat) : List Value → Action Fed
  | [] => return .yielded current
  | answer :: answers => do
    match ← Generator.progress address answer with
    | .yielded v => feed address v (consumed + 1) answers
    | .returned v => return .returned v (consumed + 1)

/-- The name under which a factory is reported. -/
def factoryName (factory : Value) : Action Value := do
  let shown ← Action.quotedText factory
  return .text (factory.naming.qualified.getD shown)

/-- The program of a body that has returned, unless answers are left over. -/
def finish (factory history v : Value) (consumed : Nat) : Action Value := do
  let expected ← history.length
  if consumed < expected then
    .fail (← Action.diverged (← factoryName factory) (.int expected) (.int consumed))
  else return Program.lift v

/-- The program of a factory after a history, once its arguments have been read. A factory that
gives no generator gives the program itself, whatever the history; otherwise the history is looked
at once the generator has started. -/
def buildOn (factory arguments : Value) (positional : List Value)
    (keywords : List (String × Value)) (history : Value) : Action Value := do
  match ← Action.invoke factory ⟨positional, keywords⟩ with
  | .generator address _ =>
    match ← Generator.progress address .nothing with
    | .returned v => finish factory history v 0
    | .yielded v =>
      match history with
      | .generator source name =>
        Action.ask (.arrowOf (.feeding source name address v factory arguments keywords)) []
      | history =>
        match ← feed address v 0 (← history.items) with
        | .yielded v => Program.graft v (.arrowOf (.replaying factory arguments keywords history))
        | .returned v consumed => finish factory history v consumed
  | v => return Program.lift v

/-- The arguments of a factory as it keeps them: a script is given the same objects in each replay.
-/
def settled (factory arguments : Value) : Action Value :=
  if factory.isScripted then Action.identify arguments else return arguments

/-- The program of a factory after a history. -/
def build (factory arguments : Value) (keywords : List (String × Value)) (history : Value) :
    Action Value := do
  let arguments ← settled factory arguments
  buildOn factory arguments (← arguments.items) keywords history

/-- Feeds a generator from another one, answer by answer. A body that returns meanwhile has a
history whose length cannot be told. -/
def feedingBody (source : Nat) (name : String) (address : Nat) (current factory arguments : Value)
    (keywords : List (String × Value)) : Action Value := do
  match ← Generator.progress source .nothing with
  | .yielded answer =>
    match ← Generator.progress address answer with
    | .yielded v =>
      Action.ask (.arrowOf (.feeding source name address v factory arguments keywords)) []
    | .returned v => finish factory (.generator source name) v 0
  | .returned _ =>
    let history := Value.generator source name
    Program.graft current (.arrowOf (.replaying factory arguments keywords history))

/-- The continuation of a built program: the same construction, for a history with one more answer.
-/
def replayingBody (factory arguments : Value) (keywords : List (String × Value)) (history : Value)
    (call : Arguments Value) : Action Value :=
  Action.takeOne "answer" call fun answer => do
    let answer ← Action.identify answer
    build factory arguments keywords (.tuple 0 ((← history.items) ++ [answer]))

/-- The names of keyword arguments are texts. -/
def keywordsOf : List (Value × Value) → Action (List (String × Value))
  | [] => return []
  | (.text name, v) :: es => do return (name, v) :: (← keywordsOf es)
  | _ => .fault .badType

/-- The program of a factory, from values as a caller gives them. -/
def buildFrom (factory arguments keywords history : Value) : Action Value := do
  let entries ← keywords.entriesIfAny
  let positional ← arguments.items
  buildOn factory arguments positional (← keywordsOf entries) history

end AlgebraicEffects.Replay
