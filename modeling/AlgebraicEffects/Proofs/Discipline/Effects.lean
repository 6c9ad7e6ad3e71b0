import AlgebraicEffects.Proofs.Discipline.Programs

/-!
The effects, their hosts and the runners follow every discipline.
-/

set_option autoImplicit false

namespace AlgebraicEffects

open Action

variable {P : {α : Type} → Action α → Prop}

namespace Host

variable [Composes P]

@[grind ←] theorem follows_agendaAt (address : Nat) : Follows P (agendaAt address) := by
  unfold agendaAt
  grind

@[grind ←] theorem follows_loopAt (address : Nat) : Follows P (loopAt address) := by
  unfold loopAt
  grind

@[grind ←] theorem follows_checkDelay (delay : Value) : Follows P (checkDelay delay) := by
  unfold checkDelay
  grind

@[grind ←] theorem follows_debug (message : String) : Follows P (debug message) :=
  follows_log _ _ _

end Host

variable [Discipline P]

@[grind ←] theorem Action.follows_allocateCompleted : Follows P allocateCompleted :=
  Discipline.allocateCompleted (P := P)

@[grind ←] theorem Action.follows_complete (address : Nat) (v : Value) : Follows P (complete address v) :=
  Discipline.complete (P := P) address v

namespace Host

@[grind ←] theorem follows_newAgenda (startTime maxSteps : Value) :
    Follows P (newAgenda startTime maxSteps) := Discipline.newAgenda (P := P) startTime maxSteps

@[grind ←] theorem follows_callLaterOnAgenda (address : Nat) (delay callback : Value)
    (arguments : List Value) :
    Follows P (callLaterOnAgenda address delay callback arguments) :=
  Discipline.callLaterOnAgenda (P := P) address delay callback arguments

@[grind ←] theorem follows_step (address : Nat) : Follows P (step address) :=
  Discipline.step (P := P) address

@[grind ←] theorem follows_drainingBody (address executed : Nat) :
    Follows P (drainingBody address executed) := by
  unfold drainingBody
  grind

@[grind ←] theorem follows_drain (address : Nat) : Follows P (drain address) :=
  follows_drainingBody address 0

@[grind ←] theorem follows_newLoop : Follows P newLoop := Discipline.newLoop (P := P)

@[grind ←] theorem follows_callLaterOnLoop (address : Nat) (delay callback : Value)
    (arguments : List Value) : Follows P (callLaterOnLoop address delay callback arguments) :=
  Discipline.callLaterOnLoop (P := P) address delay callback arguments

@[grind ←] theorem follows_callSoonOnLoop (address : Nat) (callback : Value)
    (arguments : List Value) : Follows P (callSoonOnLoop address callback arguments) :=
  Discipline.callSoonOnLoop (P := P) address callback arguments

@[grind ←] theorem follows_turn (address : Nat) : Follows P (turn address) :=
  Discipline.turn (P := P) address

@[grind ←] theorem follows_closingTurn (address : Nat) : Follows P (closingTurn address) :=
  Discipline.closingTurn (P := P) address

theorem follows_turningBody (address : Nat) : Follows P (turningBody address) := by
  unfold turningBody
  grind

@[grind ←] theorem follows_callLater (host delay callback : Value) (arguments : List Value) :
    Follows P (callLater host delay callback arguments) := by
  unfold callLater
  grind

@[grind ←] theorem follows_callSoon (host callback : Value) (arguments : List Value) :
    Follows P (callSoon host callback arguments) := by
  unfold callSoon
  grind

@[grind ←] theorem follows_time (host : Value) : Follows P (time host) := by
  unfold time
  grind

end Host

namespace Output

@[grind ←] theorem follows_printHandler (sink : Value) : Follows P (printHandler sink) := by
  unfold printHandler
  grind

@[grind ←] theorem follows_writeLine (line : String) : Follows P (writeLine line) :=
  follows_update fun _ => ⟨rfl, rfl, rfl⟩

theorem follows_standardOutputBody (call : Arguments Value) :
    Follows P (standardOutputBody call) := by
  unfold standardOutputBody
  grind

end Output

namespace Log

@[grind ←] theorem follows_loggerHandler (level : Value) : Follows P (loggerHandler level) := by
  unfold loggerHandler
  grind

end Log

namespace Environment

@[grind ←] theorem follows_frozen (environment : Value) : Follows P (frozen environment) := by
  unfold frozen
  grind

@[grind ←] theorem follows_handler (environment : Value) : Follows P (handler environment) := by
  unfold handler
  grind

end Environment

namespace Chance

@[grind ←] theorem follows_seedOf (seed : Value) : Follows P (seedOf seed) := by
  unfold seedOf
  grind

@[grind ←] theorem follows_handler (seed : Value) : Follows P (handler seed) := by
  unfold handler
  refine follows_bind (follows_seedOf seed) fun n => follows_bind ?_ fun _ => follows_pure _
  exact follows_read fun _ => follows_write (fun _ => ⟨rfl, rfl, rfl⟩) (follows_done _)

@[grind ←] theorem follows_draw (address : Nat) : Follows P (draw address) := by
  unfold draw
  refine follows_read fun s => ?_
  split
  · exact follows_write (fun _ => ⟨rfl, rfl, rfl⟩) (follows_done _)
  · exact follows_fault _

end Chance

namespace Choice

@[grind ←] theorem follows_choose (first second : Value) : Follows P (choose first second) :=
  Program.follows_graft _ _

@[grind ←] theorem follows_chooseIn (low high : Value) : Follows P (chooseIn low high) := by
  unfold chooseIn
  grind

@[grind ←] theorem follows_guard (condition : Value) : Follows P (guard condition) := by
  unfold guard
  grind

@[grind ←] theorem follows_extreme (greatest : Bool) (x y : Value) :
    Follows P (extreme greatest x y) := by
  unfold extreme
  grind

@[grind ←] theorem follows_firstSolution (program : Value) : Follows P (firstSolution program) := by
  unfold firstSolution
  grind

end Choice

namespace State

@[grind ←] theorem follows_modify (f : Value) : Follows P (modify f) := Program.follows_graft _ _

@[grind ←] theorem follows_handler (withFinalState : Value) : Follows P (handler withFinalState) := by
  unfold handler
  grind

@[grind ←] theorem follows_run (program initial withFinalState : Value) :
    Follows P (run program initial withFinalState) := by
  unfold run
  grind

end State

namespace Suspension

@[grind ←] theorem follows_suspend (start : Value) : Follows P (suspend start) := by
  unfold suspend
  grind

@[grind ←] theorem follows_wait (delay : Value) : Follows P (wait delay) := by
  unfold wait
  grind

@[grind ←] theorem follows_par (left right : Value) : Follows P (par left right) :=
  Program.follows_graft _ _

@[grind ←] theorem follows_store (index : Nat) (cells value : Value) :
    Follows P (store index cells value) := by
  unfold store
  split
  · refine follows_bind (follows_itemsNow _ _) fun items => ?_
    split
    · exact follows_update fun _ => ⟨rfl, rfl, rfl⟩
    · exact follows_fault _
  · refine follows_bind (follows_entriesNow _ _) fun entries => ?_
    refine follows_bind (Value.follows_addEntry _ _ _) fun entries => ?_
    exact follows_update fun _ => ⟨rfl, rfl, rfl⟩
  · exact follows_fault _

@[grind ←] theorem follows_settle (index : Nat) (cells value : Value) :
    Follows P (settle index cells value) := by
  unfold settle
  grind

@[grind ←] theorem follows_ensureHandled (program : Value) : Follows P (ensureHandled program) := by
  unfold ensureHandled
  grind

end Suspension

namespace Run

@[grind ←] theorem follows_checkRecursionLimit (limit : Value) :
    Follows P (checkRecursionLimit limit) := by
  unfold checkRecursionLimit
  grind

@[grind ←] theorem follows_debug (message : String) : Follows P (debug message) :=
  follows_log _ _ _

@[grind ←] theorem follows_run (program handlers limit : Value) :
    Follows P (run program handlers limit) := by
  unfold run
  grind

@[grind ←] theorem follows_failed (f : Failure) (values : List Value) :
    Follows P (failed f values) := by
  unfold failed
  grind

@[grind ←] theorem follows_runCaught (program handlers limit : Value) :
    Follows P (runCaught program handlers limit) := by
  unfold runCaught
  grind

@[grind ←] theorem follows_settle (values : List Value) : Follows P (settle values) := by
  unfold settle
  grind

@[grind ←] theorem follows_begin (program handlers host : Value) (completed : Nat) :
    Follows P (begin program handlers host completed) := by
  unfold begin
  grind

@[grind ←] theorem follows_completedAt (address : Nat) : Follows P (completedAt address) :=
  follows_inspect _

@[grind ←] theorem follows_drainHost (host : Value) : Follows P (drainHost host) := by
  unfold drainHost
  grind

@[grind ←] theorem follows_runScheduled (program handlers scheduler limit : Value) :
    Follows P (runScheduled program handlers scheduler limit) := by
  unfold runScheduled
  refine follows_bind (follows_truth scheduler) fun given => ?_
  split
  all_goals
    refine follows_bind (by grind) fun host => ?_
    refine follows_bind follows_allocateCompleted fun completed => ?_
    refine follows_bind (follows_checkRecursionLimit limit) fun _ => ?_
    refine follows_bind (by grind) fun drained => ?_
    cases drained with
    | error f => grind
    | ok executed => grind

@[grind ←] theorem follows_outcomeOnLoop (program handlers : Value) (loop : Nat) :
    Follows P (outcomeOnLoop program handlers loop) := by
  unfold outcomeOnLoop
  refine follows_bind follows_allocateCompleted fun completed => ?_
  refine follows_bind (follows_attempt (follows_begin _ _ _ _)) fun begun => ?_
  cases begun with
  | error f => grind
  | ok _ => grind

@[grind ←] theorem follows_runOnLoop (program handlers : Value) :
    Follows P (runOnLoop program handlers) := by
  have running (isRunning : Bool) :
      Follows P (update fun s => { s with loopIsRunning := isRunning }) :=
    follows_update fun _ => ⟨rfl, rfl, rfl⟩
  have closed (loop : Nat) : Follows P (Host.updateLoop loop fun l => { l with isClosed := true }) :=
    Discipline.closeLoop (P := P) loop
  unfold runOnLoop
  refine follows_bind (follows_inspect _) fun isRunning => ?_
  split
  · exact follows_fault _
  · refine follows_bind (running true) fun _ => follows_bind Host.follows_newLoop fun loop => ?_
    refine follows_bind (follows_outcomeOnLoop program handlers loop) fun outcome => ?_
    refine follows_bind (Host.follows_closingTurn loop) fun _ => follows_bind (closed loop) fun _ => ?_
    exact follows_bind (running false) fun _ => follows_pure outcome

@[grind ←] theorem follows_preset (environment sink seed : Value) :
    Follows P (preset environment sink seed) := by
  unfold preset
  grind

end Run

end AlgebraicEffects
