import AlgebraicEffects.Replay.Drawing
import AlgebraicEffects.Script.Body

/-!
What calls mean: the body of every function, and of every other value that can be called.
-/

set_option autoImplicit false

namespace AlgebraicEffects

/-- Calls a function. -/
def Function.apply : Function → Arguments Value → Action Value
  | .closure _ params body scope => closureBody params body scope
  | .generatorBody name params body scope => generatorFunctionBody name params body scope
  | .proceeding address scope frames => fun _ => Generator.proceedingBody address scope frames
  | .exhausting address collected => fun _ => Generator.exhaustingBody address collected
  | .pairing address entries => fun _ => Generator.pairingBody address entries
  | .growing list address => fun _ => Generator.growingBody list address
  | .drawing address collected => fun _ => Generator.drawingBody address collected
  | .method m => m.apply
  | .boundTo f receiver => Function.boundToBody f receiver
  | .binder f => Function.binderBody f
  | .leaf => Program.leafBody
  | .grafted resume next => Program.graftedBody resume next
  | .mapped f => Program.mappedBody f
  | .constant v => Program.constantBody v
  | .collecting pending collected => Program.collectingBody pending collected
  | .lastOf => Program.lastOfBody
  | .asTuple => Program.asTupleBody
  | .applying programs => Program.applyingBody programs
  | .spreading f => Program.spreadingBody f
  | .traversing address f collected => fun _ => Program.traversingBody address f collected
  | .tracing answers records => Program.tracingBody answers records
  | .exploring answers depth => Program.exploringBody answers depth
  | .exploringDrawn address name resume depth collected => fun _ =>
    Program.exploringDrawnBody address name resume depth collected
  | .replaying factory arguments keywords history =>
    Replay.replayingBody factory arguments keywords history
  | .feeding source name address current factory arguments keywords => fun _ =>
    Replay.feedingBody source name address current factory arguments keywords
  | .programFactory source => Arrow.programFactoryBody source
  | .fmapped base mapper => Arrow.fmappedBody base mapper
  | .chained base next => Arrow.chainedBody base next
  | .remembering memo implementation params continuation =>
    Replay.rememberingBody memo implementation params continuation
  | .rememberedResume memo recording continuation =>
    Replay.rememberedResumeBody memo recording continuation
  | .under table atLeaf resume => Handler.underBody table atLeaf resume
  | .stack handlers => Handler.stackBody handlers
  | .handling address => Handler.handlingBody address
  | .standardOutput => Output.standardOutputBody
  | .emitTo sink => Output.emitToBody sink
  | .reemit => Output.reemitBody
  | .reemitted message => Output.reemittedBody message
  | .gather _ => Output.gatherBody
  | .gathered message => Output.gatheredBody message
  | .paired _ => Output.pairedBody
  | .logAt level => Log.logAtBody level
  | .readAll tag environment => Environment.readAllBody tag environment
  | .askFor environment => Environment.askForBody environment
  | .draw address => Chance.drawBody address
  | .chosen first second => Choice.chosenBody first second
  | .chosenIn low high => Choice.chosenInBody low high
  | .tryBoth => Choice.tryBothBody
  | .fallBack resume => Choice.fallBackBody resume
  | .extremum greatest => Choice.extremumBody greatest
  | .extremumSecond greatest resume => Choice.extremumSecondBody greatest resume
  | .extremumOf greatest first => Choice.extremumOfBody greatest first
  | .enumerate => Choice.enumerateBody
  | .enumerateSecond resume => Choice.enumerateSecondBody resume
  | .appended front => Choice.appendedBody front
  | .noSolutions => Choice.noSolutionsBody
  | .singleton => Choice.singletonBody
  | .failToNothing => Choice.failToNothingBody
  | .modifying f => State.modifyingBody f
  | .getState => State.getStateBody
  | .getAt resume => State.getAtBody resume
  | .putState => State.putStateBody
  | .putAt value resume => State.putAtBody value resume
  | .finishState withFinal => State.finishStateBody withFinal
  | .finishAt withFinal value => State.finishAtBody withFinal value
  | .waitStart delay => Suspension.waitStartBody delay
  | .exitStart => Suspension.exitStartBody
  | .forkStart => Suspension.forkStartBody
  | .allocateCells => Suspension.allocateCellsBody
  | .parStart left right => Suspension.parStartBody left right
  | .parForked left right cells => Suspension.parForkedBody left right cells
  | .parSettle index cells => Suspension.parSettleBody index cells
  | .suspendOn host => Suspension.suspendOnBody host
  | .nowOf host => Suspension.nowOfBody host
  | .resumeChecked resume => Suspension.resumeCheckedBody resume
  | .recordIn address => Run.recordInBody address
  | .draining address executed => fun _ => Host.drainingBody address executed
  | .turning address => fun _ => Host.turningBody address

/-- Calls a handler: evaluates the program under it. -/
def Handler.applyBody (table : Handler.Table) (atLeaf : Option Value) (call : Arguments Value) :
    Action Value :=
  Action.takeOne "program" call fun program => Handler.evaluate table atLeaf program

/-- Calls a value. Functions, arrows and handlers can be called, everything else is a fault. -/
def Value.apply : Value → Arguments Value → Action Value
  | .function _ f, call => f.apply call
  | .arrow _ a, call => a.apply call
  | .handler _ table atLeaf, call => Handler.applyBody table atLeaf call
  | _, _ => .fault .badType

end AlgebraicEffects
