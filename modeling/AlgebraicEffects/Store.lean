import AlgebraicEffects.Failure.Message
import AlgebraicEffects.Host.Agenda
import AlgebraicEffects.Host.EventLoop
import AlgebraicEffects.Random.Twister

/-!
The store: everything that a later step can see changed.

Objects that change in place live at addresses, one table for each kind of object. An address is the
length of the table when the object was made, so addresses are never reused. Lists and dictionaries
are values as they were made; for those that have been written into, the store has what they hold
now, by their tags.
-/

set_option autoImplicit false

namespace AlgebraicEffects

/-- How far a generator object has come. -/
inductive GeneratorState where
  | fresh (scope : Scope) (body : List Stmt)
  | suspended (x : Option String) (scope : Scope) (frames : List Frame)
  /-- Records what the generator made by `implementation` receives. -/
  | recording (recording : Nat) (implementation : Value) (arguments : List Value)
  | recordingSuspended (recording inner : Nat)
  | running
  | finished

/-- The answers that one run of an implementation has received, and how often it has resumed since
the last of them. -/
structure Recording where
  received : List Value
  calls : Nat

/-- One resumption that was made: after which answers, as which call, with which argument, and the
subtree that it gave. -/
structure Remembered where
  received : List Value
  call : Nat
  answer : Value
  subtree : Value

structure Record where
  level : String
  component : String
  message : String

structure Store where
  globals : List (String × Value)
  /-- Notes taken during the current step, the latest first. -/
  notes : List Snapshot
  /-- Text written to the standard output during the current step. -/
  output : String
  /-- Log records of the current step, the latest first. -/
  records : List Record
  /-- The tag that the next object with an identity gets. -/
  nextTag : Nat
  /-- What the lists that have been written into hold now. -/
  writtenLists : List (Nat × List Value)
  /-- What the dictionaries that have been written into hold now. -/
  writtenDicts : List (Nat × List (Value × Value))
  /-- For each run that may suspend, the values that have reached its end. -/
  completed : Array (List Value)
  generators : Array GeneratorState
  recordings : Array Recording
  memos : Array (List Remembered)
  agendas : Array Agenda
  loops : Array EventLoop
  /-- Whether a loop is making turns; only one can at a time. -/
  loopIsRunning : Bool
  twisters : Array Twister

namespace Store

def empty : Store :=
  ⟨[], [], "", [], firstTag, [], [], #[], #[], #[], #[], #[], #[], false, #[]⟩

/-- What a list holds now. -/
def itemsNow (s : Store) (tag : Nat) (items : List Value) : List Value :=
  (s.writtenLists.lookup tag).getD items

/-- The items of a list from a position on, of which `rest` are those it was made with. -/
def itemsFrom (s : Store) (tag position : Nat) (rest : List Value) : List Value :=
  match s.writtenLists.lookup tag with
  | some items => items.drop position
  | none => rest

/-- What a dictionary holds now. -/
def entriesNow (s : Store) (tag : Nat) (entries : List (Value × Value)) : List (Value × Value) :=
  (s.writtenDicts.lookup tag).getD entries

/-- Whether a dictionary has more keys than it had. -/
def dictHasGrown (s : Store) (tag count : Nat) : Bool :=
  match s.writtenDicts.lookup tag with
  | some entries => count < entries.length
  | none => false

/-- Replaces what is kept under a tag. -/
def keep {α : Type} (tag : Nat) (v : α) : List (Nat × α) → List (Nat × α)
  | [] => [(tag, v)]
  | (t, w) :: ws => if t = tag then (tag, v) :: ws else (t, w) :: keep tag v ws

/-- The store after a list has been written into. -/
def writeList (s : Store) (tag : Nat) (items : List Value) : Store :=
  { s with writtenLists := keep tag items s.writtenLists }

/-- The store after a dictionary has been written into. -/
def writeDict (s : Store) (tag : Nat) (entries : List (Value × Value)) : Store :=
  { s with writtenDicts := keep tag entries s.writtenDicts }

/-- The values that have reached the end of a run. -/
def completedAt (s : Store) (address : Nat) : List Value := s.completed.getD address []

/-- The same store without what the last step reported. -/
def cleared (s : Store) : Store := { s with notes := [], output := "", records := [] }

end Store

/-- How what can change is seen: for a list or a dictionary that has been written into, what it
shows now, and for an agenda what it shows. -/
structure Sight where
  container : Nat → Option Snapshot
  agenda : Nat → Snapshot

mutual

/-- What a value shows. -/
def Value.seen (sight : Sight) : Value → Snapshot
  | .nothing => .nothing
  | .bool b => .bool b
  | .int n => .int n
  | .float tag x => .float tag x
  | .text t => .text t
  | .bytes bs => .bytes bs
  | .list tag items =>
    match sight.container tag with
    | some shown => shown
    | none => .list tag (seenItems sight [] items)
  | .tuple tag items => .tuple tag (seenItems sight [] items)
  | .names tag members => .names tag (sortedNames members)
  | .dict tag entries =>
    match sight.container tag with
    | some shown => shown
    | none => .dict tag (seenEntries sight [] entries)
  | .frozen tag entries => .frozen tag (seenEntries sight [] entries)
  | .view tag items => .view tag (seenItems sight [] items)
  | .leaf tag v => .leaf tag (v.seen sight)
  | .operation tag name params _ => .operation tag name (seenItems sight [] params)
  | .function tag f => f.seen sight tag
  | .arrow tag a => .arrow tag a.typeName a.naming.name (a.seenCallable sight)
  | .handler tag table atLeaf =>
    .handler tag (seenTable sight [] table) (match atLeaf with
      | some f => f.seen sight
      | none => .nothing)
  | .ok tag v => .ok tag (v.seen sight)
  | .err tag e => .err tag (e.seen sight)
  | .outcome tag r vs => .outcome tag (r.seen sight) (vs.seen sight)
  | .failure f => f.seen sight 0
  | .generator a _ => .generator a
  | .agenda a => sight.agenda a
  | .loopHost a => .loopHost a
  | .notAvailable => .notAvailable

def seenItems (sight : Sight) (done : List Snapshot) : List Value → List Snapshot
  | [] => done.reverse
  | v :: vs => seenItems sight (v.seen sight :: done) vs

def seenEntries (sight : Sight) (done : List (Snapshot × Snapshot)) :
    List (Value × Value) → List (Snapshot × Snapshot)
  | [] => done.reverse
  | (k, v) :: es => seenEntries sight ((k.seen sight, v.seen sight) :: done) es

def seenTable (sight : Sight) (done : List (String × Snapshot)) :
    List (String × Value) → List (String × Snapshot)
  | [] => done.reverse
  | (name, v) :: es => seenTable sight ((name, v.seen sight) :: done) es

/-- What a function with this tag shows: what it is bound to, or made of. -/
def Function.seen (sight : Sight) (tag : Nat) : Function → Snapshot
  | .boundTo f receiver =>
    .boundTo tag ((f.naming.qualified <|> f.naming.name).getD "?") (f.seen sight)
      (receiver.seen sight)
  | .binder f => .binder tag (f.seen sight)
  | .stack handlers => .stack tag (seenItems sight [] handlers)
  | f => .function tag f.text

/-- What the callable under a value shows, if there is one. -/
def Value.seenCallable (sight : Sight) : Value → Option Snapshot
  | .function _ f => f.seenCallable sight
  | .arrow _ a => a.seenCallable sight
  | _ => none

def Function.seenCallable (sight : Sight) : Function → Option Snapshot
  | .boundTo f _ => f.seenCallable sight
  | _ => none

def Arrow.seenCallable (sight : Sight) : Arrow → Option Snapshot
  | .plain f => some (f.seen sight)
  | .generated tag source => some (.function tag (Function.programFactory source).text)
  | .partially base _ _ => base.seenCallable sight

/-- A failure shows its kind and what it was made from. -/
def Failure.seen (sight : Sight) (tag : Nat) : Failure → Snapshot
  | .raised kind argument => .failure tag kind true (argument.seen sight) []
  | .exhausted v => .failure tag .exhausted false (v.seen sight) []
  | .unhandledEffect message name params =>
    .failure tag .unhandledEffect true (.text message)
      [("name", name.seen sight), ("params", params.seen sight)]
  | .replayDivergence message functionName expected consumed =>
    .failure tag .replayDivergence true (.text message)
      [("function_name", functionName.seen sight), ("expected", expected.seen sight),
       ("consumed", consumed.seen sight)]
  | .stepLimit message maxSteps =>
    .failure tag .stepLimit true (.text message) [("max_steps", maxSteps.seen sight)]
  | .missingKey message key =>
    .failure tag .missingKey true (.text message) [("key", key.seen sight)]
  | .caught tag f => f.seen sight tag
  | f => .failure tag f.kind f.hasMessage (.text f.text) []

end

/-- A task shows its time, its number, its callback and the arguments of that. -/
def Task.seen (sight : Sight) (t : Task) : Snapshot :=
  .tuple 0 [t.dueTime.seen sight, .int t.sequence, t.callback.seen sight,
    .tuple 0 (seenItems sight [] t.arguments)]

def Agenda.seen (sight : Sight) (address : Nat) (a : Agenda) : Snapshot :=
  .agenda address (a.startTime.seen sight) (a.maxSteps.seen sight)
    (a.queue.numbered.map (Task.seen sight)) (a.peekTime.seen sight) a.sequenceCounter a.steps
    (a.currentTime.seen sight)

/-- What can come to contain itself. -/
inductive Place where
  | container (tag : Nat)
  | agenda (address : Nat)
  deriving DecidableEq

namespace Store

/-- How a store is seen from inside the places of `path`, at most `depth` places further in. What is
met again on its own path is not opened again, so as many places as there are is deep enough. -/
def sight (s : Store) : Nat → List Place → Sight
  | 0, _ => ⟨fun _ => none, fun a => .repeated (Value.agenda a).typeName⟩
  | depth + 1, path =>
    { container := fun tag =>
        match s.writtenLists.lookup tag, s.writtenDicts.lookup tag with
        | some items, _ =>
          if path.contains (.container tag) then some (.repeated (Value.list tag []).typeName)
          else some (.list tag (seenItems (s.sight depth (.container tag :: path)) [] items))
        | none, some entries =>
          if path.contains (.container tag) then some (.repeated (Value.dict tag []).typeName)
          else some (.dict tag (seenEntries (s.sight depth (.container tag :: path)) [] entries))
        | none, none => none
      agenda := fun address =>
        match s.agendas[address]? with
        | some a =>
          if path.contains (.agenda address) then .repeated (Value.agenda address).typeName
          else a.seen (s.sight depth (.agenda address :: path)) address
        | none => .repeated (Value.agenda address).typeName }

/-- The number of places that a path can visit. -/
def places (s : Store) : Nat := s.writtenLists.length + s.writtenDicts.length + s.agendas.size

end Store

/-- What a value shows now. -/
def Store.show (s : Store) (v : Value) : Snapshot := v.seen (s.sight (s.places + 1) [])

end AlgebraicEffects
