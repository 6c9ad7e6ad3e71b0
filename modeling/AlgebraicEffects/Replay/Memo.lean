import AlgebraicEffects.Replay.Build

/-!
The memory of an implementation written as a generator.

Replay runs the body of such an implementation again for every answer, and with it every resumption
that the body made before its last `yield`. Each resumption is remembered by the answers that the
body had received, which have to be the same objects, by its position among the resumptions since
the last answer, and by its argument, which has to be the same object or equal and of the same
type. A replay that repeats it is given the subtree of the first time. A resumption that fails is
not remembered.
-/

set_option autoImplicit false

namespace AlgebraicEffects

/-- Whether a remembered resumption was made at this place with this argument. -/
def Remembered.fits (s : Store) (place : Recording) (answer : Value) (m : Remembered) : Bool :=
  m.call == place.calls && (s.show m.answer).agrees (s.show answer) &&
    sameItems (m.received.map s.show) (place.received.map s.show)

namespace Replay

def allocateMemo : Action Nat :=
  .read fun s => .write (fun s => { s with memos := s.memos.push [] }) (.done s.memos.size)

def allocateRecording : Action Nat :=
  .read fun s =>
    .write (fun s => { s with recordings := s.recordings.push ⟨[], 0⟩ }) (.done s.recordings.size)

/-- The subtree of the first resumption that was made at this place with this argument. -/
def remembered? (s : Store) (place : Recording) (answer : Value) (memory : List Remembered) :
    Option Value :=
  (memory.find? (·.fits s place answer)).map (·.subtree)

/-- Makes a generator that runs the implementation and records what it receives. -/
def rememberingBody (memo : Nat) (implementation : Value) (params : List Value)
    (continuation : Value) (call : Arguments Value) : Action Value := do
  let _ ← Action.accept (.required []) call
  let recording ← allocateRecording
  let resume := Value.arrowOf (.rememberedResume memo recording continuation)
  let state := GeneratorState.recording recording implementation (params ++ [resume])
  return .generator (← Generator.allocate state) "recording"

/-- Counts one more resumption of a recording; answers what it had received and its position. -/
def nextCall (recording : Nat) : Action Recording :=
  .read fun s =>
    .write
      (fun s =>
        { s with
          recordings := s.recordings.modify recording fun r => { r with calls := r.calls + 1 } })
      (.done (s.recordings.getD recording ⟨[], 0⟩))

/-- Resumes through the memory. The subtree that is remembered is the one that is given back. -/
def rememberedResumeBody (memo recording : Nat) (continuation : Value) (call : Arguments Value) :
    Action Value :=
  Action.takeOptional "answer" .nothing call fun answer => do
    let place ← nextCall recording
    match ← Action.inspect fun s => remembered? s place answer (s.memos.getD memo []) with
    | some subtree => return subtree
    | none =>
      let subtree ← Action.identify (← Action.ask continuation [answer])
      Action.update fun s =>
        { s with
          memos := s.memos.modify memo (· ++ [⟨place.received, place.calls, answer, subtree⟩]) }
      return subtree

end Replay

end AlgebraicEffects
