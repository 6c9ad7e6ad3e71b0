import AlgebraicEffects.Dispatch

/-!
Disciplines.

A property of actions composes if sequences inherit it from their parts. What follows a call has to
have it however the call ends, so nothing is asked of what is called. A discipline is such a property
that also admits the few actions by which agendas, event loops and finished runs change; then
everything that a value can do when it is called follows it, as whatever else it does changes nothing of
these. This module says what a discipline is and gives the rules for the actions that values are handled
with.
-/

set_option autoImplicit false

namespace AlgebraicEffects

/-- A change of the store that leaves the agendas, the event loops and the finished runs. -/
def LeavesHosts (change : Store → Store) : Prop :=
  ∀ s, (change s).agendas = s.agendas ∧ (change s).loops = s.loops ∧
    (change s).completed = s.completed

/-- Sequences have the property if their parts have it. -/
class Composes (P : {α : Type} → Action α → Prop) : Prop where
  done {α : Type} (x : α) : P (.done x)
  fail {α : Type} (f : Failure) : P (.fail f : Action α)
  read {α : Type} {k : Store → Action α} : (∀ s, P (k s)) → P (.read k)
  write {α : Type} {change : Store → Store} {k : Action α} : LeavesHosts change → P k → P (.write change k)
  call {α : Type} {f : Value} {arguments : Arguments Value} {k : Ending → Action α} :
    (∀ o, P (k o)) → P (.call f arguments k)
  bind {α β : Type} {a : Action α} {k : α → Action β} : P a → (∀ x, P (k x)) → P (a.bind k)
  attempt {α : Type} {a : Action α} : P a → P a.attempt

/-- A property that composes and that everything done with hosts and finished runs has. -/
class Discipline (P : {α : Type} → Action α → Prop) : Prop extends Composes P where
  newAgenda (startTime maxSteps : Value) : P (Host.newAgenda startTime maxSteps)
  callLaterOnAgenda (address : Nat) (delay callback : Value) (arguments : List Value) :
    P (Host.callLaterOnAgenda address delay callback arguments)
  step (address : Nat) : P (Host.step address)
  newLoop : P Host.newLoop
  callLaterOnLoop (address : Nat) (delay callback : Value) (arguments : List Value) :
    P (Host.callLaterOnLoop address delay callback arguments)
  callSoonOnLoop (address : Nat) (callback : Value) (arguments : List Value) :
    P (Host.callSoonOnLoop address callback arguments)
  turn (address : Nat) : P (Host.turn address)
  closingTurn (address : Nat) : P (Host.closingTurn address)
  closeLoop (address : Nat) : P (Host.updateLoop address fun l => { l with isClosed := true })
  allocateCompleted : P Action.allocateCompleted
  complete (address : Nat) (v : Value) : P (Action.complete address v)

/-- The action follows the discipline. -/
def Follows (P : {α : Type} → Action α → Prop) {α : Type} (a : Action α) : Prop := P a

variable {P : {α : Type} → Action α → Prop} [Composes P] {α β : Type}

namespace Action

@[grind ←] theorem follows_done (x : α) : Follows P (.done x : Action α) := Composes.done (P := P) x

@[grind ←] theorem follows_pure (x : α) : Follows P (pure x : Action α) := Composes.done (P := P) x

@[grind ←] theorem follows_fail (f : Failure) : Follows P (.fail f : Action α) := Composes.fail (P := P) f

@[grind ←] theorem follows_read {k : Store → Action α} (h : ∀ s, Follows P (k s)) :
    Follows P (.read k) := Composes.read (P := P) h

theorem follows_write {change : Store → Store} {k : Action α} (hc : LeavesHosts change)
    (h : Follows P k) : Follows P (.write change k) := Composes.write (P := P) hc h

@[grind ←] theorem follows_call {f : Value} {arguments : Arguments Value} {k : Ending → Action α}
    (h : ∀ o, Follows P (k o)) : Follows P (.call f arguments k) := Composes.call (P := P) h

@[grind ←] theorem follows_bind {a : Action α} {k : α → Action β} (ha : Follows P a)
    (hk : ∀ x, Follows P (k x)) : Follows P (a >>= k) := Composes.bind (P := P) ha hk

@[grind ←] theorem follows_bind' {a : Action α} {k : α → Action β} (ha : Follows P a)
    (hk : ∀ x, Follows P (k x)) : Follows P (a.bind k) := Composes.bind (P := P) ha hk

@[grind ←] theorem follows_map {a : Action α} (f : α → β) (ha : Follows P a) : Follows P (f <$> a) :=
  Composes.bind (P := P) ha fun _ => Composes.done (P := P) _

@[grind ←] theorem follows_attempt {a : Action α} (ha : Follows P a) : Follows P a.attempt :=
  Composes.attempt (P := P) ha

@[grind ←] theorem follows_recover {a : Action α} {recovery : Failure → Action α} (ha : Follows P a)
    (h : ∀ f, Follows P (recovery f)) : Follows P (a.recover recovery) := by
  refine follows_bind' (follows_attempt ha) fun o => ?_
  cases o with
  | ok x => exact follows_done x
  | error f => exact h f

@[grind ←] theorem follows_inspect (view : Store → α) : Follows P (inspect view) :=
  follows_read fun s => follows_done (view s)

theorem follows_update {change : Store → Store} (h : LeavesHosts change) : Follows P (update change) :=
  follows_write h (follows_done ())

@[grind ←] theorem follows_invoke (f : Value) (arguments : Arguments Value) :
    Follows P (invoke f arguments) := by
  refine follows_call fun o => ?_
  cases o with
  | ok v => exact follows_done v
  | error e => exact follows_fail e

@[grind ←] theorem follows_ask (f : Value) (arguments : List Value) :
    Follows P (ask f arguments) := follows_invoke f _

@[grind ←] theorem follows_fault (kind : Kind) : Follows P (fault kind : Action α) := follows_fail _

@[grind ←] theorem follows_lacking (name : String) : Follows P (lacking name : Action α) :=
  follows_fail _

@[grind ←] theorem follows_mapM {f : α → Action β} {xs : List α} (h : ∀ x ∈ xs, Follows P (f x)) :
    Follows P (xs.mapM f) := by
  induction xs with
  | nil => exact follows_pure []
  | cons x xs ih =>
    rw [List.mapM_cons]
    refine follows_bind (h x List.mem_cons_self) fun y => ?_
    exact follows_bind (ih fun z hz => h z (List.mem_cons_of_mem x hz)) fun ys => follows_pure _

@[grind ←] theorem follows_forM {f : α → Action Unit} {xs : List α} (h : ∀ x, Follows P (f x)) :
    Follows P (xs.forM f) := by
  induction xs with
  | nil => exact follows_pure ()
  | cons x xs ih => exact follows_bind (h x) fun _ => ih

@[grind ←] theorem follows_foldlM {f : β → α → Action β} {xs : List α} {y : β}
    (h : ∀ y x, Follows P (f y x)) : Follows P (xs.foldlM f y) := by
  induction xs generalizing y with
  | nil => exact follows_pure y
  | cons x xs ih => exact follows_bind (h y x) fun z => ih

@[grind ←] theorem follows_identify (v : Value) : Follows P (identify v) := by
  unfold identify
  split
  · exact follows_done v
  · exact follows_read fun s => follows_write (fun _ => ⟨rfl, rfl, rfl⟩) (follows_done _)

@[grind ←] theorem follows_identifyAll (call : Arguments Value) : Follows P (identifyAll call) := by
  unfold identifyAll
  split
  · exact follows_done call
  · exact follows_read fun s => follows_write (fun _ => ⟨rfl, rfl, rfl⟩) (follows_done _)

@[grind ←] theorem follows_caught (f : Failure) : Follows P (caught f) := by
  unfold caught
  grind

@[grind ←] theorem follows_shown (v : Value) : Follows P (shown v) := follows_inspect _

@[grind ←] theorem follows_writable (v : Value) : Follows P (writable v) := by
  unfold writable
  grind

@[grind ←] theorem follows_plainText (v : Value) : Follows P (plainText v) := by
  unfold plainText
  grind

@[grind ←] theorem follows_quotedText (v : Value) : Follows P (quotedText v) := by
  unfold quotedText
  grind

@[grind ←] theorem follows_itemsNow (tag : Nat) (items : List Value) : Follows P (itemsNow tag items) := by
  unfold itemsNow
  grind

@[grind ←] theorem follows_itemNow (tag position : Nat) (item : Value) :
    Follows P (itemNow tag position item) := by
  unfold itemNow
  grind

@[grind ←] theorem follows_entriesNow (tag : Nat) (entries : List (Value × Value)) :
    Follows P (entriesNow tag entries) := by
  unfold entriesNow
  grind

@[grind ←] theorem follows_truth (v : Value) : Follows P (truth v) := by
  unfold truth
  grind

@[grind ←] theorem follows_unhandled (name params : Value) : Follows P (unhandled name params) := by
  unfold unhandled
  grind

@[grind ←] theorem follows_diverged (functionName expected consumed : Value) :
    Follows P (diverged functionName expected consumed) := by
  unfold diverged
  grind

@[grind ←] theorem follows_limitReached (maxSteps : Value) : Follows P (limitReached maxSteps) := by
  unfold limitReached
  grind

@[grind ←] theorem follows_missing (key : Value) : Follows P (missing key) := by
  unfold missing
  grind

@[grind ←] theorem follows_log (level component message : String) :
    Follows P (log level component message) :=
  follows_update fun _ => ⟨rfl, rfl, rfl⟩

@[grind ←] theorem follows_accept (signature : Signature Value) (arguments : Arguments Value) :
    Follows P (accept signature arguments) := by
  unfold accept
  grind

@[grind ←] theorem follows_takeOne {name : String} {call : Arguments Value} {k : Value → Action α}
    (h : ∀ a, Follows P (k a)) : Follows P (takeOne name call k) := by
  unfold takeOne
  grind

@[grind ←] theorem follows_takeTwo {first second : String} {call : Arguments Value}
    {k : Value → Value → Action α} (h : ∀ a b, Follows P (k a b)) :
    Follows P (takeTwo first second call k) := by
  unfold takeTwo
  grind

@[grind ←] theorem follows_takeOptional {name : String} {default : Value} {call : Arguments Value}
    {k : Value → Action α} (h : ∀ a, Follows P (k a)) :
    Follows P (takeOptional name default call k) := by
  unfold takeOptional
  grind

end Action

end AlgebraicEffects
