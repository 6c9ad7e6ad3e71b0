import AlgebraicEffects.Effects.Chance
import AlgebraicEffects.Effects.Choice
import AlgebraicEffects.Effects.Environment
import AlgebraicEffects.Effects.Log
import AlgebraicEffects.Effects.State
import AlgebraicEffects.Effects.Suspension
import AlgebraicEffects.Script.Operands

/-!
The forms that belong to effects: what each accepts, and the operation or handler that it makes.
-/

set_option autoImplicit false

namespace AlgebraicEffects.EffectForm

open Operands

def signature : EffectForm → Signature Value
  | .read | .random | .decide | .fail | .get | .exit | .fork | .now | .notAvailable
  | .reversePrintHandler | .collectPrintHandler | .writerHandler | .backtrack | .pickMax | .pickMin
  | .allChoices => .required []
  | .print | .log => .required ["message"]
  | .ask => .required ["key"]
  | .choose => .required ["first", "second"]
  | .chooseIn => .required ["low", "high"]
  | .guard => .required ["condition"]
  | .put => .required ["value"]
  | .modify => .required ["func"]
  | .suspend => .required ["start"]
  | .wait => .required ["delay"]
  | .par => .required ["left", "right"]
  | .printHandler => .optional [] [("sink", .arrowOf .standardOutput)]
  | .loggerHandler => .optional [] [("level", .text "INFO")]
  | .readerHandler => .optional [] [("env", .nothing)]
  | .randomHandler => .optional [] [("seed", .nothing)]
  | .stateHandler => (Signature.required []).withKeywords [("with_final_state", .bool false)]
  | .runState =>
    (Signature.required ["program", "initial"]).withKeywords [("with_final_state", .bool false)]
  | .suspendHandler => .required ["host"]
  | .firstSolution => .required ["program"]

def perform (e : EffectForm) (b : Bound Value) : Action Value :=
  let vs := b.values
  match e with
  | .print => one vs fun m => return Output.print m
  | .log => one vs fun m => return Log.log m
  | .read => return Environment.read
  | .ask => one vs fun k => return Environment.ask k
  | .random => return Chance.random
  | .decide => return Choice.decide
  | .fail => return Choice.fail
  | .choose => two vs Choice.choose
  | .chooseIn => two vs Choice.chooseIn
  | .guard => one vs Choice.guard
  | .get => return State.get
  | .put => one vs fun v => return State.put v
  | .modify => one vs State.modify
  | .suspend => one vs Suspension.suspend
  | .wait => one vs Suspension.wait
  | .exit => return Suspension.exit
  | .fork => return Suspension.fork
  | .now => return Suspension.now
  | .par => two vs Suspension.par
  | .notAvailable => return .notAvailable
  | .printHandler => one vs Output.printHandler
  | .reversePrintHandler => return Output.reversePrintHandler
  | .collectPrintHandler => return Output.collectPrintHandler
  | .writerHandler => return Log.writerHandler
  | .loggerHandler => one vs Log.loggerHandler
  | .readerHandler => one vs Environment.handler
  | .randomHandler => one vs Chance.handler
  | .stateHandler => one vs State.handler
  | .runState => three vs State.run
  | .suspendHandler => one vs fun h => return Suspension.handler h
  | .firstSolution => one vs Choice.firstSolution
  | .backtrack => return Choice.backtrack
  | .pickMax => return Choice.pickMax
  | .pickMin => return Choice.pickMin
  | .allChoices => return Choice.allChoices

end AlgebraicEffects.EffectForm
