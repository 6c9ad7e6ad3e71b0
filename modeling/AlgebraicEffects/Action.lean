import AlgebraicEffects.Snapshot.Fault
import AlgebraicEffects.Store
import AlgebraicEffects.Value.Identity

/-!
Actions: computations that read and change the store, fail, and call functions.

A call is a request: the action says which value is called with which arguments and how it goes on
after it, and does not itself know what functions do. So every operation of the library is a plain
total function into actions, and what calls mean is added once, by `Action.run`, which takes the
bodies of functions as a parameter and keeps the pending continuations on a stack.
-/

set_option autoImplicit false

namespace AlgebraicEffects

/-- How a call ended. -/
abbrev Ending := Except Failure Value

inductive Action (α : Type) where
  | done (a : α)
  | fail (f : Failure)
  | read (k : Store → Action α)
  | write (change : Store → Store) (k : Action α)
  | call (f : Value) (arguments : Arguments Value) (k : Ending → Action α)

namespace Action

variable {α β γ : Type}

def bind : Action α → (α → Action β) → Action β
  | .done a, k => k a
  | .fail f, _ => .fail f
  | .read r, k => .read fun s => (r s).bind k
  | .write c r, k => .write c (r.bind k)
  | .call f as r, k => .call f as fun o => (r o).bind k

instance : Monad Action where
  pure := .done
  bind := bind

/-- Runs the action to its end, whichever it is. -/
def attempt : Action α → Action (Except Failure α)
  | .done a => .done (.ok a)
  | .fail f => .done (.error f)
  | .read r => .read fun s => (r s).attempt
  | .write c r => .write c r.attempt
  | .call f as r => .call f as fun o => (r o).attempt

/-- Goes on with the recovery if the action fails. -/
def recover (a : Action α) (recovery : Failure → Action α) : Action α :=
  a.attempt.bind fun
    | .ok x => .done x
    | .error f => recovery f

def ofExcept : Except Failure α → Action α
  | .ok a => .done a
  | .error f => .fail f

/-- A part of the store. -/
def inspect (view : Store → α) : Action α := .read fun s => .done (view s)

def update (change : Store → Store) : Action Unit := .write change (.done ())

/-- Calls a value and passes its failure on. -/
def invoke (f : Value) (arguments : Arguments Value) : Action Value := .call f arguments ofExcept

/-- Calls a value with positional arguments. -/
def ask (f : Value) (arguments : List Value) : Action Value := invoke f (.of arguments)

def fault (kind : Kind) : Action α := .fail (.fault kind)

/-- The failure of asking for an attribute that is not there. -/
def lacking (name : String) : Action α := .fail (.noAttribute name)

theorem bind_done (a : Action α) : a.bind .done = a := by
  induction a with
  | done a => rfl
  | fail f => rfl
  | read r ih => simp only [bind, ih]
  | write c r ih => simp only [bind, ih]
  | call f as r ih => simp only [bind, ih]

theorem bind_assoc (a : Action α) (k : α → Action β) (l : β → Action γ) :
    (a.bind k).bind l = a.bind fun x => (k x).bind l := by
  induction a with
  | done a => rfl
  | fail f => rfl
  | read r ih => simp only [bind, ih]
  | write c r ih => simp only [bind, ih]
  | call f as r ih => simp only [bind, ih]

instance : LawfulMonad Action :=
  LawfulMonad.mk' Action (fun a => bind_done a) (fun _ _ => rfl) bind_assoc

/-- Continuations that wait for the end of a call, the innermost first. -/
abbrev Pending := List (Ending → Action Value)

/-- Runs an action, with `body` saying what each value does when it is called. The fuel bounds the
number of steps; `none` means that it ran out. -/
def run (body : Value → Arguments Value → Action Value) :
    Nat → Action Value → Pending → Store → Option (Ending × Store)
  | 0, _, _, _ => none
  | _ + 1, .done v, [], s => some (.ok v, s)
  | _ + 1, .fail f, [], s => some (.error f, s)
  | n + 1, .done v, k :: ks, s => run body n (k (.ok v)) ks s
  | n + 1, .fail f, k :: ks, s => run body n (k (.error f)) ks s
  | n + 1, .read r, ks, s => run body n (r s) ks s
  | n + 1, .write c r, ks, s => run body n r ks (c s)
  | n + 1, .call f as r, ks, s => run body n (body f as) (r :: ks) s

/-- More fuel keeps a finished run. -/
theorem run_succ {body : Value → Arguments Value → Action Value} {n : Nat} {a : Action Value}
    {ks : Pending} {s : Store} {r : Ending × Store} (h : run body n a ks s = some r) :
    run body (n + 1) a ks s = some r := by
  induction n generalizing a ks s with
  | zero => simp [run] at h
  | succ n ih =>
    cases a with
    | done v =>
      cases ks with
      | nil => simpa [run] using h
      | cons k ks => simp only [run] at h ⊢; exact ih h
    | fail f =>
      cases ks with
      | nil => simpa [run] using h
      | cons k ks => simp only [run] at h ⊢; exact ih h
    | read r => simp only [run] at h ⊢; exact ih h
    | write c r => simp only [run] at h ⊢; exact ih h
    | call f as r => simp only [run] at h ⊢; exact ih h

/-- Gives a value, and everything in it that can be reached, its identity. -/
def identify (v : Value) : Action Value :=
  if v.isIdentified then .done v
  else .read fun s =>
    let (v, next) := v.tagged s.nextTag
    .write (fun s => { s with nextTag := next }) (.done v)

/-- Gives each argument of a call its identity. -/
def identifyAll (call : Arguments Value) : Action (Arguments Value) :=
  if call.areIdentified then .done call
  else .read fun s =>
    let (call, next) := call.tagged s.nextTag
    .write (fun s => { s with nextTag := next }) (.done call)

/-- Gives a failure its identity as a value. -/
def caught (f : Failure) : Action Failure := do
  match ← identify (.failure f) with
  | .failure f => return f
  | _ => return f

/-- What a value shows now. -/
def shown (v : Value) : Action Snapshot := inspect fun s => s.show v

/-- What a value shows now, if all of it can be written. -/
def writable (v : Value) : Action Snapshot := do
  let s ← shown v
  match s.unwritable? with
  | some .noAttribute => lacking "func"
  | some kind => fault kind
  | none => return s

/-- The text of a value without quotes. -/
def plainText (v : Value) : Action String := do return (← writable v).plain

/-- The quoted text of a value. -/
def quotedText (v : Value) : Action String := do return (← writable v).quoted

/-- What a list holds now. One that has no identity yet has never been written into. -/
def itemsNow (tag : Nat) (items : List Value) : Action (List Value) :=
  if tag = 0 then .done items else inspect fun s => s.itemsNow tag items

/-- What stands now at the place of an item of a list. -/
def itemNow (tag position : Nat) (item : Value) : Action Value :=
  if tag = 0 then .done item else inspect fun s => (s.itemsFrom tag position [item]).headD item

/-- What a dictionary holds now. One that has no identity yet has never been written into. -/
def entriesNow (tag : Nat) (entries : List (Value × Value)) : Action (List (Value × Value)) :=
  if tag = 0 then .done entries else inspect fun s => s.entriesNow tag entries

/-- Whether a value counts as true now. -/
def truth (v : Value) : Action Bool :=
  match v with
  | .list tag items => do return !(← itemsNow tag items).isEmpty
  | .dict tag entries => do return !(← entriesNow tag entries).isEmpty
  | v => .done v.isTrue

/-- A new list of the values that reach the end of a run. -/
def allocateCompleted : Action Nat :=
  .read fun s =>
    .write (fun s => { s with completed := s.completed.push [] }) (.done s.completed.size)

/-- Adds a value to those that have reached the end of a run. -/
def complete (address : Nat) (v : Value) : Action Unit :=
  update fun s => { s with completed := s.completed.modify address (· ++ [v]) }

/-- The failure of a run that left an operation unhandled. -/
def unhandled (name params : Value) : Action Failure := do
  return .unhandledEffect (Failure.unhandledText (← writable name) (← writable params)) name params

/-- The failure of a body that returned before its answers ran out. -/
def diverged (functionName expected consumed : Value) : Action Failure := do
  let message :=
    Failure.divergenceText (← writable functionName) (← writable expected) (← writable consumed)
  return .replayDivergence message functionName expected consumed

/-- The failure of an agenda that has run all the tasks it may. -/
def limitReached (maxSteps : Value) : Action Failure := do
  return .stepLimit (Failure.stepLimitText (← writable maxSteps)) maxSteps

/-- The failure of an environment that lacks a key. -/
def missing (key : Value) : Action Failure := do
  return .missingKey (Failure.missingKeyText (← writable key)) key

def log (level component message : String) : Action Unit :=
  update fun s => { s with records := ⟨level, component, message⟩ :: s.records }

/-- Binds the arguments of a call to a signature. -/
def accept (signature : Signature Value) (arguments : Arguments Value) : Action (Bound Value) :=
  match signature.bind? arguments with
  | some bound => .done bound
  | none => fault .badType

/-- Goes on with the argument of a call that takes one. -/
def takeOne (name : String) (call : Arguments Value) (k : Value → Action α) : Action α := do
  match (← accept (.required [name]) call).values with
  | [a] => k a
  | _ => fault .badType

/-- Goes on with the arguments of a call that takes two. -/
def takeTwo (first second : String) (call : Arguments Value) (k : Value → Value → Action α) :
    Action α := do
  match (← accept (.required [first, second]) call).values with
  | [a, b] => k a b
  | _ => fault .badType

/-- Goes on with the argument of a call that may leave it out. -/
def takeOptional (name : String) (default : Value) (call : Arguments Value)
    (k : Value → Action α) : Action α := do
  match (← accept (.optional [] [(name, default)]) call).values with
  | [a] => k a
  | _ => fault .badType

end Action

end AlgebraicEffects
