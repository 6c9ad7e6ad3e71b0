import AlgebraicEffects.Program.Arrow
import AlgebraicEffects.Run
import AlgebraicEffects.Script.Operands

/-!
The core forms of the script language: what each accepts, and the call into the library that it
makes.
-/

set_option autoImplicit false

namespace AlgebraicEffects.CoreForm

open Operands

private def noItems : Value := .tuple 0 []

def signature : CoreForm → Signature Value
  | .sequence | .listOf | .tupleOf | .compose => (Signature.required []).withRest
  | .leaf | .lift | .ok => .required ["value"]
  | .operation => .optional ["name"] [("params", noItems), ("resume", .arrowOf .leaf)]
  | .graft => .required ["program", "then"]
  | .apply => (Signature.required ["cfunc"]).withRest
  | .collectAll => .required ["programs"]
  | .traverse => .required ["items", "func"]
  | .generated | .arrow => .required ["func"]
  | .build => .optional ["factory"] [("args", noItems), ("kwargs", .nothing), ("history", noItems)]
  | .handler =>
    ({ Signature.required [] with unnamed := [⟨"table", some .nothing⟩], acceptsExtra := true } :
      Signature Value).withKeywords [("return_", .nothing)]
  | .handlerOf => .optional [] [("table", .frozen 0 []), ("return_", .nothing)]
  | .handle => .optional ["program", "model"] [("return_", .nothing)]
  | .applyHandlers => .required ["program", "handlers"]
  | .run | .runCaught =>
    (Signature.optional ["program"] [("handlers", noItems)]).withKeywords
      [("recursion_limit", .nothing)]
  | .runScheduled =>
    (Signature.optional ["program"] [("handlers", noItems)]).withKeywords
      [("scheduler", .nothing), ("recursion_limit", .nothing)]
  | .runOnLoop => .optional ["program"] [("handlers", noItems)]
  | .preset =>
    .optional [] [("env", .nothing), ("sink", .arrowOf .standardOutput), ("seed", .nothing)]
  | .ensureHandled => .required ["program"]
  | .outcome => .optional ["result"] [("values", noItems)]
  | .err => .required ["error"]
  | .agenda => .optional [] [("start_time", .float 0 0), ("max_steps", .nothing)]
  | .unhandledEffect => .optional ["name"] [("params", noItems)]
  | .replayDivergence => .required ["function_name", "expected", "consumed"]
  | .noResult => .required []
  | .stepLimit => .required ["max_steps"]
  | .missingKey => .required ["key"]

def perform (c : CoreForm) (b : Bound Value) : Action Value :=
  let vs := b.values
  match c with
  | .leaf => one vs fun v => return .leaf 0 v
  | .operation => three vs Program.operation
  | .graft => two vs Program.graft
  | .lift => one vs fun v => return Program.lift v
  | .apply => one vs fun g => Program.applyTo g b.rest
  | .collectAll => one vs fun ps => do Program.collectAll (← ps.items)
  | .sequence => Program.sequence b.rest
  | .traverse => two vs Program.traverse
  | .listOf => Program.collectAll b.rest
  | .tupleOf => Program.tupleAll b.rest
  | .generated => one vs fun g => return Arrow.ofGenerator g
  | .build => four vs Replay.buildFrom
  | .arrow => one vs fun g => return Arrow.ofCallable g
  | .handler => two vs fun model atLeaf => Handler.ofModel model atLeaf b.extra
  | .handlerOf => two vs fun table atLeaf => do Handler.ofEntries (← table.entries) atLeaf
  | .handle => three vs Handler.handle
  | .compose => return .arrowOf (.stack b.rest)
  | .applyHandlers => two vs Handler.applyEach
  | .run => three vs Run.run
  | .runCaught => three vs Run.runCaught
  | .runScheduled => four vs Run.runScheduled
  | .runOnLoop => two vs Run.runOnLoop
  | .preset => three vs Run.preset
  | .ensureHandled => one vs Suspension.ensureHandled
  | .outcome => two vs fun r values => return .outcome 0 r values
  | .ok => one vs fun v => return .ok 0 v
  | .err => one vs fun e => return .err 0 e
  | .agenda => two vs Host.newAgenda
  | .unhandledEffect => two vs fun n ps => return .failure (← Action.unhandled n ps)
  | .replayDivergence => three vs fun n e c => return .failure (← Action.diverged n e c)
  | .noResult => return .failure .noResult
  | .stepLimit => one vs fun n => return .failure (← Action.limitReached n)
  | .missingKey => one vs fun k => return .failure (← Action.missing k)

end AlgebraicEffects.CoreForm
