import AlgebraicEffects.Host.Heap
import AlgebraicEffects.Value.Basic

/-!
An agenda of tasks on a virtual clock.

Tasks are due at a time and numbered in the order in which they were scheduled. They run by due
time, and by number among tasks that are due together. Running a task moves the clock to its due
time; nothing ever waits.
-/

set_option autoImplicit false

namespace AlgebraicEffects

structure Task where
  time : Number
  /-- The identity of the time as a value. -/
  timeTag : Nat
  sequence : Nat
  callback : Value
  arguments : List Value

/-- The time at which a task is due, as a value. -/
def Task.dueTime (t : Task) : Value := .ofNumber t.timeTag t.time

/-- A task runs before another one that is due later, or due at the same time and scheduled later.
What is due at no number is neither due earlier nor due later nor due at the same time. -/
def Task.before (a b : Task) : Bool :=
  if a.time.equal b.time then a.sequence < b.sequence else a.time.less b.time

structure Agenda where
  startTime : Value
  /-- The greatest number of tasks that may run, or nothing. -/
  maxSteps : Value
  queue : Heap Task
  sequenceCounter : Nat
  steps : Nat
  currentTime : Value

namespace Agenda

/-- An empty agenda whose clock shows `startTime`. -/
def starting (startTime maxSteps : Value) : Agenda := ⟨startTime, maxSteps, .empty, 0, 0, startTime⟩

/-- The agenda with one more task, which gets the next number. -/
def schedule (a : Agenda) (time : Number) (timeTag : Nat) (callback : Value)
    (arguments : List Value) : Agenda :=
  { a with
    queue := a.queue.push Task.before ⟨time, timeTag, a.sequenceCounter, callback, arguments⟩
    sequenceCounter := a.sequenceCounter + 1 }

/-- The time of the next task. -/
def peekTime (a : Agenda) : Value :=
  match a.queue.peek? with
  | none => .nothing
  | some t => t.dueTime

/-- Whether the limit on the number of tasks is reached; an agenda without a limit never reaches it.
-/
def atLimit (a : Agenda) : Bool :=
  match a.maxSteps.number? with
  | some limit => limit.less (.int a.steps) || limit.equal (.int a.steps)
  | none => false

/-- Takes the next task: the clock moves to its time and it counts as a step. -/
def pop? (a : Agenda) : Option (Task × Agenda) :=
  match a.queue.pop? Task.before with
  | none => none
  | some (t, queue) =>
    some (t, { a with queue := queue, currentTime := t.dueTime, steps := a.steps + 1 })

/-- Scheduling loses no task and adds one. -/
theorem toList_queue_schedule (a : Agenda) (time : Number) (timeTag : Nat) (callback : Value)
    (arguments : List Value) :
    (a.schedule time timeTag callback arguments).queue.toList.Perm
      (⟨time, timeTag, a.sequenceCounter, callback, arguments⟩ :: a.queue.toList) :=
  Heap.toList_push Task.before _ a.queue

/-- Taking a task leaves the others. -/
theorem toList_queue_pop {a rest : Agenda} {t : Task} (h : a.pop? = some (t, rest)) :
    a.queue.toList.Perm (t :: rest.queue.toList) := by
  simp only [pop?] at h
  split at h
  · simp at h
  · rename_i u queue hq
    obtain ⟨rfl, rfl⟩ := Prod.mk.injEq .. ▸ Option.some.inj h
    exact Heap.toList_pop hq

end Agenda

end AlgebraicEffects
