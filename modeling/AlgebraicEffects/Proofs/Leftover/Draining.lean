import AlgebraicEffects.Proofs.Leftover.Turns
import AlgebraicEffects.Run

/-!
How the flows of a run end.

The first flow of a run takes its turn, and then the agenda resumes flows until one leaves something or no
task is left (`Flows`). Tasks that go on with no flow of a run are calls like any other. Main statement: a
run of an agenda ends exactly as its flows do (`exists_flows`, `Flows.exists_runs`).
-/

set_option autoImplicit false

namespace AlgebraicEffects

open Action (Runs Takes takes_bind_iff takes_ask_iff takes_invoke_iff takes_done_iff takes_fail_iff
  takes_read_iff takes_write_iff)

/-- How what has left a residue ends: with a value, or failing as it is reported. -/
def Residue.Ends {α : Type} (R : Residue) (u : Store) (r : Except Failure α) : Prop :=
  match R.failure? u with
  | none => ∃ v, r = .ok v
  | some f => r = .error f

theorem Residue.Checked.ends {R : Residue} {u : Store} {r : Ending} (h : R.Checked u r) : R.Ends u r := by
  cases R with
  | ended =>
    obtain ⟨tag, v, rfl⟩ := h
    exact ⟨_, rfl⟩
  | left | raised | refused => exact h

/-- A callback goes on with a flow that was suspended on the agenda. -/
def GoesOn (address : Nat) (callback : Value) (arguments : List Value) (resume answer : Value) : Prop :=
  callback = resumption address resume ∧ (arguments = [answer] ∨ arguments = [] ∧ answer = .nothing)

/-- What the turn leaves that begins with a callback of the agenda. -/
inductive Wakes (address : Nat) (callback : Value) (arguments : List Value) (s : Store) :
    Residue → Store → Prop where
  | flow {resume answer : Value} {o : Ending} {t u : Store} {R : Residue} :
      GoesOn address callback arguments resume answer →
      Runs Value.apply (Action.ask resume [answer]) s o t → TurnEnds address o t R u →
      Wakes address callback arguments s R u
  | foreign {o : Ending} {u : Store} : (∀ resume answer, ¬GoesOn address callback arguments resume answer) →
      Runs Value.apply (Action.ask callback arguments) s o u →
      Wakes address callback arguments s (.of o) u

/-- The store in which a task is called that was taken from an agenda. -/
def Store.taking (s : Store) (address : Nat) (task : Task) (next : Agenda) : Store :=
  let t := { s with agendas := s.agendas.setIfInBounds address next }
  { t with records := ⟨"DEBUG", Host.logComponent, "running task #" ++ toString task.sequence ++ " at t=" ++
      (t.show task.dueTime).plain⟩ :: t.records }

/-- What running an agenda leaves: its tasks are taken one after the other, until one of them leaves
something. -/
inductive Drains (address : Nat) : Store → Residue → Store → Prop where
  | missing {s : Store} : s.agendas[address]? = none → Drains address s (.refused (.fault .badType)) s
  | idle {s : Store} {a : Agenda} : s.agendas[address]? = some a → a.pop? = none → Drains address s .ended s
  | limited {s t : Store} {a next : Agenda} {task : Task} {f : Failure} : s.agendas[address]? = some a →
      a.pop? = some (task, next) → a.atLimit = true →
      Runs Value.apply (Action.limitReached a.maxSteps >>= fun f => (.fail f : Action Bool)) s (.error f) t →
      Drains address s (.refused f) t
  | stops {s t : Store} {a next : Agenda} {task : Task} {R : Residue} : s.agendas[address]? = some a →
      a.pop? = some (task, next) → a.atLimit = false →
      Wakes address task.callback task.arguments (s.taking address task next) R t → R ≠ .ended →
      Drains address s R t
  | goesOn {s t u : Store} {a next : Agenda} {task : Task} {R : Residue} : s.agendas[address]? = some a →
      a.pop? = some (task, next) → a.atLimit = false →
      Wakes address task.callback task.arguments (s.taking address task next) .ended t →
      Drains address t R u → Drains address s R u

section Draining

variable {address n : Nat} {s t u : Store} {r : Ending} {callback : Value} {arguments : List Value}

theorem Residue.ends_of (o : Ending) : (Residue.of o).Ends u o := by
  cases o with
  | ok v => exact ⟨v, rfl⟩
  | error f => exact rfl

theorem Residue.Ends.ok {α : Type} {R : Residue} {x : α} (h : R.Ends u (.ok x)) : R = .ended := by
  cases R with
  | ended => rfl
  | left | raised | refused => cases h

theorem Residue.Ends.error {α : Type} {R : Residue} {f : Failure}
    (h : R.Ends u (.error f : Except Failure α)) : R ≠ .ended := by
  rintro rfl
  obtain ⟨v, hv⟩ := h
  cases hv

/-- What fails does so whatever it would have given. -/
theorem Residue.Ends.of_error {α β : Type} {R : Residue} {f : Failure}
    (h : R.Ends u (.error f : Except Failure α)) : R.Ends u (.error f : Except Failure β) := by
  cases R with
  | ended => exact absurd rfl h.error
  | left | raised | refused =>
    cases h
    rfl

theorem Wakes.exists_runs {R : Residue} (h : Wakes address callback arguments s R u) :
    ∃ r, Runs Value.apply (Action.ask callback arguments) s r u ∧ R.Ends u r := by
  cases h with
  | flow hflow hask hturn =>
    obtain ⟨rfl, harguments⟩ := hflow
    obtain ⟨i, hask⟩ := hask.exists_takes
    obtain ⟨j, q, hevaluated, hR⟩ := hturn.exists_takes
    obtain ⟨n, r, hresumed, hchecked⟩ := exists_takes_resumption harguments hask hevaluated hR
    exact ⟨r, hresumed.runs, hchecked.ends⟩
  | foreign _ h => exact ⟨_, h, Residue.ends_of _⟩

/-- The next task is taken, reported and called. -/
theorem takes_step_iff {a next : Agenda} {task : Task} {q : Except Failure Bool}
    (ha : s.agendas[address]? = some a) (hpop : a.pop? = some (task, next)) (hlimit : a.atLimit = false) :
    Takes n (Host.step address) s q u ↔ ∃ o, Takes n (Action.ask task.callback task.arguments)
      (s.taking address task next) o u ∧ q = o.map fun _ => true := by
  unfold Host.step
  show Takes n (.read _) s q u ↔ _
  rw [takes_read_iff]
  simp only [ha]
  rw [Action.bind]
  simp only [hpop, hlimit, Bool.false_eq_true, if_false]
  exact takes_write_iff.trans (takes_read_iff.trans (takes_write_iff.trans takes_bind_done_iff))

/-- An agenda that has run all the tasks it may fails to run another. -/
theorem takes_step_limited_iff {a next : Agenda} {task : Task} {q : Except Failure Bool}
    (ha : s.agendas[address]? = some a) (hpop : a.pop? = some (task, next)) (hlimit : a.atLimit = true) :
    Takes n (Host.step address) s q u ↔
      Takes n (Action.limitReached a.maxSteps >>= fun f => (.fail f : Action Bool)) s q u := by
  unfold Host.step
  show Takes n (.read _) s q u ↔ _
  rw [takes_read_iff]
  simp only [ha]
  rw [Action.bind]
  simp only [hpop, hlimit, if_true]

/-- A residue is left by running the agenda. -/
theorem Drains.exists_runs {R : Residue} (h : Drains address s R u) (executed : Nat) :
    ∃ r, Runs Value.apply (Host.drainingBody address executed) s r u ∧ R.Ends u r := by
  induction h generalizing executed with
  | @missing s ha =>
    refine ⟨_, .read ?_, rfl⟩
    simp only [ha]
    exact .fail _ s
  | @idle s a ha hpop =>
    refine ⟨_, .read ?_, .int executed, rfl⟩
    simp only [ha, Action.bind, hpop]
    exact .done _ s
  | limited ha hpop hlimit hreached =>
    obtain ⟨n, hreached⟩ := hreached.exists_takes
    exact ⟨_, ((takes_step_limited_iff ha hpop hlimit).2 hreached).runs.bind_error, rfl⟩
  | stops ha hpop hlimit hwakes hR =>
    obtain ⟨r, hcall, hends⟩ := hwakes.exists_runs
    obtain ⟨n, hcall⟩ := hcall.exists_takes
    cases r with
    | ok v => exact absurd hends.ok hR
    | error f =>
      exact ⟨_, ((takes_step_iff ha hpop hlimit).2 ⟨_, hcall, rfl⟩).runs.bind_error, hends⟩
  | goesOn ha hpop hlimit hwakes _ ih =>
    obtain ⟨r, hcall, v, rfl⟩ := hwakes.exists_runs
    obtain ⟨n, hcall⟩ := hcall.exists_takes
    obtain ⟨r, hrest, hends⟩ := ih (executed + 1)
    have hstep := ((takes_step_iff ha hpop hlimit).2 ⟨_, hcall, rfl⟩).runs
    exact ⟨r, hstep.bind (.invoke hrest), hends⟩

end Draining

/-- The program with its last step, which notes the value of the flow, under all handlers but the one that
suspends flows. -/
def applied (program handlers : Value) (completed : Nat) : Action Value := do
  let tracked ← Program.graft program (.arrowOf (.recordIn completed))
  Handler.applyAll tracked (← handlers.items)

/-- What the flows of a run leave: the first takes its turn, and then the agenda is run. -/
inductive Flows (program handlers : Value) (address completed : Nat) (s : Store) : Residue → Store → Prop where
  | stops {o : Ending} {t u : Store} {R : Residue} :
      Runs Value.apply (applied program handlers completed) s o t → TurnEnds address o t R u → R ≠ .ended →
      Flows program handlers address completed s R u
  | goesOn {o : Ending} {t u w : Store} {R : Residue} :
      Runs Value.apply (applied program handlers completed) s o t → TurnEnds address o t .ended u →
      Drains address u R w → Flows program handlers address completed s R w

section Flowing

variable {program handlers : Value} {address completed n : Nat} {s u : Store}

theorem applyTurns_lift (p : Value) (turns : List (Action Value)) :
    Handler.applyTurns (Program.lift p) turns = Handler.applyTurns p turns := by
  have hlift : Program.lift (Program.lift p) = Program.lift p := by
    rw [Program.lift, if_pos (Program.isProgram_lift p)]
  cases turns with
  | nil => rw [Handler.applyTurns, hlift, Handler.applyTurns]
  | cons turn turns => rw [Handler.applyTurns, hlift, Handler.applyTurns]

/-- Applying more handlers goes on from what the first ones give. -/
theorem applyTurns_append (p : Value) (turns more : List (Action Value)) :
    Handler.applyTurns p (turns ++ more) =
      (Handler.applyTurns p turns).bind fun q => Handler.applyTurns q more := by
  induction turns generalizing p with
  | nil => exact (applyTurns_lift p more).symm
  | cons turn turns ih =>
    show turn.bind _ = Action.bind (turn.bind _) _
    rw [Action.bind_assoc]
    congr 1
    funext h
    show (Action.ask h [Program.lift p]).bind _ = Action.bind (Action.bind _ _) _
    rw [Action.bind_assoc]
    congr 1
    funext next
    exact ih next

/-- The first flow begins with the program under all handlers, and is checked. -/
theorem begin_eq (program handlers : Value) (address completed : Nat) :
    Run.begin program handlers (.agenda address) completed =
      (applied program handlers completed).bind fun p =>
        (Action.ask (Suspension.handler (.agenda address)) [Program.lift p]).bind fun q =>
          (Suspension.ensureHandled q).bind fun _ => .done () := by
  unfold Run.begin applied
  show Action.bind _ _ = Action.bind (Action.bind _ _) _
  rw [Action.bind_assoc]
  congr 1
  funext tracked
  show Action.bind _ _ = Action.bind (Action.bind _ _) _
  rw [Action.bind_assoc]
  congr 1
  funext stack
  show Action.bind (Handler.applyTurns tracked ((stack ++ [_]).map .done)) _ = _
  rw [List.map_append, applyTurns_append, Action.bind_assoc]
  congr 1
  funext p
  show Action.bind (Action.bind (Action.ask _ [Program.lift p]) fun q => .done (Program.lift q)) _ = _
  rw [Action.bind_assoc]
  congr 1
  funext q
  show (Suspension.ensureHandled (Program.lift q)).bind _ = _
  rw [Suspension.ensureHandled, Suspension.ensureHandled, Program.lift, if_pos (Program.isProgram_lift q)]
  rfl

/-- Asking the handler that suspends flows is to evaluate under it. -/
theorem takes_handler_iff {p : Value} {r : Ending} :
    Takes n (Action.ask (Suspension.handler (.agenda address)) [Program.lift p]) s r u ↔
      ∃ m, n = m + 1 ∧ Takes m (evaluated address (.ok p)) s r u := by
  rw [takes_ask_iff, evaluated, ← Handler.evaluate_lift]
  exact .rfl

theorem Residue.Ends.map {α β : Type} {R : Residue} {r : Except Failure α} (h : R.Ends u r) (g : α → β) :
    R.Ends u (r.map g) := by
  cases R with
  | ended =>
    obtain ⟨x, rfl⟩ := h
    exact ⟨g x, rfl⟩
  | left name params =>
    obtain rfl : r = .error (u.unhandled name params) := h
    exact rfl
  | raised f | refused f =>
    obtain rfl : r = .error f := h
    exact rfl

/-- The evaluation of the first flow is checked. -/
theorem Residue.Evaluates.begun {R : Residue} {q : Ending} (h : R.Evaluates u q) :
    ∃ r : Except Failure Unit, Runs Value.apply ((Action.ofExcept q).bind fun v =>
      (Suspension.ensureHandled v).bind fun _ => .done ()) u r u ∧ R.Ends u r := by
  obtain ⟨r, hr, hchecked⟩ := h.checked
  rw [← Action.bind_assoc]
  exact ⟨_, hr.map fun _ => (), hchecked.ends.map _⟩

theorem exists_runs_begin {o : Ending} {t : Store} {R : Residue}
    (happlied : Runs Value.apply (applied program handlers completed) s o t)
    (hturn : TurnEnds address o t R u) :
    ∃ r, Runs Value.apply (Run.begin program handlers (.agenda address) completed) s r u ∧ R.Ends u r := by
  rw [begin_eq]
  cases o with
  | error f =>
    cases hturn
    exact ⟨_, happlied.bind_error, rfl⟩
  | ok p =>
    obtain ⟨n, q, hevaluated, hR⟩ := hturn.exists_takes
    obtain ⟨r, hr, hends⟩ := hR.begun
    have hasked := (takes_handler_iff.2 ⟨n, rfl, hevaluated⟩).runs
    refine ⟨r, happlied.bind ?_, hends⟩
    cases q with
    | ok v => exact hasked.bind hr
    | error f =>
      cases hr
      exact hasked.bind_error

theorem Flows.exists_runs {R : Residue} (h : Flows program handlers address completed s R u) :
    ∃ r : Ending, Runs Value.apply (do
      Run.begin program handlers (.agenda address) completed
      Run.drainHost (.agenda address)) s r u ∧ R.Ends u r := by
  cases h with
  | stops happlied hturn hR =>
    obtain ⟨r, hbegin, hends⟩ := exists_runs_begin happlied hturn
    cases r with
    | ok x => exact absurd hends.ok hR
    | error f => exact ⟨_, hbegin.bind_error, hends.of_error⟩
  | goesOn happlied hturn hdrains =>
    obtain ⟨r, hbegin, x, rfl⟩ := exists_runs_begin happlied hturn
    obtain ⟨r, hdrain, hends⟩ := hdrains.exists_runs 0
    exact ⟨r, hbegin.bind hdrain, hends⟩

end Flowing

end AlgebraicEffects
