import AlgebraicEffects.Proofs.Loop.Turning
import AlgebraicEffects.Proofs.Queue.Histories
import AlgebraicEffects.Proofs.Identities

/-!
Runners that answer outcomes.

However an evaluation ends, the runners that answer an outcome make one of its end: a value is the
result, a failure is the error, with its identity and no other failure in its place, and the values that
were reached before are listed (`runners_conclude`). Only the check of the limit on the depth of calls
stands outside of what the run of a scheduler captures, so that its failure escapes there.
-/

set_option autoImplicit false

namespace AlgebraicEffects

open Action (Runs)

section Reporting

variable {s : Store}

/-- The store after a log record was taken. -/
def Store.logged (s : Store) (r : Record) : Store := { s with records := r :: s.records }

theorem Store.identify_logged (s : Store) (r : Record) (v : Value) :
    ((s.logged r).identify v).1 = (s.identify v).1 := by
  unfold Store.identify
  split <;> rfl

theorem runs_identify (v : Value) (s : Store) :
    Runs Value.apply (Action.identify v) s (.ok (s.identify v).1) (s.identify v).2 :=
  (traced_identify s v).runs

/-- The store with a new loop. -/
def Store.withLoop (s : Store) : Store := { s with loops := s.loops.push .starting }

/-- A new loop has nothing to count. -/
theorem Store.owes_withLoop (s : Store) : s.withLoop.Owes s.loops.size 0 :=
  ⟨.starting, Array.getElem?_push_size, rfl, EventLoop.signals_starting, rfl⟩

end Reporting

namespace Run

/-- The outcome of a failure, which gets its identity from a store. -/
def captured (s : Store) (f : Failure) (values : List Value) : Value :=
  .outcome 0 (.err 0 (s.identify (.failure f)).1) (.tuple 0 values)

/-- The outcome of flows that have all ended, with the values they have reached. -/
def settled (s : Store) : List Value → Value
  | [] => captured s .noResult []
  | v :: vs => succeeded v (v :: vs)

/-- The outcome of an evaluation that ended in a store. -/
def concluded (s : Store) : Ending → Value
  | .ok v => succeeded (s.identify v).1 [(s.identify v).1]
  | .error f => captured s f []

/-- The outcome of flows that list the values they reach at an address, when a host has run them. -/
def concludedAt (completed : Nat) (s : Store) {α : Type} : Except Failure α → Value
  | .ok _ => settled s (s.completedAt completed)
  | .error f => captured s f (s.completedAt completed)

/-- The host of a run, which is the scheduler it is given or else a new agenda, and the address of the
values it reaches. -/
def hosting (scheduler : Value) : Action (Value × Nat) := do
  let host ←
    if ← Action.truth scheduler then pure scheduler else Host.newAgenda (.float 0 0) .nothing
  return (host, ← Action.allocateCompleted)

/-- The flows of a run on an agenda. -/
def onAgenda (program handlers host : Value) (completed : Nat) : Action Value := do
  begin program handlers host completed
  drainHost host

/-- How the callbacks of a loop have ended: the first failure counts. -/
def endingOf (l : EventLoop) : Except Failure Unit :=
  match l.failure with
  | some f => .error f
  | none => .ok ()

/-- The flows of a run on a loop. -/
def onLoop (program handlers : Value) (loop completed : Nat) : Action Unit := do
  begin program handlers (.loopHost loop) completed
  let _ ← Action.ask (.arrowOf (.turning loop)) []
  Action.ofExcept (endingOf (← Host.loopAt loop))

section Ends

variable {α β : Type} {s t : Store}

theorem runs_failed (f : Failure) (values : List Value) (s : Store) :
    Runs Value.apply (failed f values) s (.ok (captured s f values)) (s.identify (.failure f)).2 :=
  (runs_identify (.failure f) s).bind (.done _ _)

theorem exists_runs_settle (values : List Value) (s : Store) :
    ∃ t, Runs Value.apply (settle values) s (.ok (settled s values)) t ∧ t.loops = s.loops := by
  cases values with
  | nil => exact ⟨_, runs_failed .noResult [] s, s.loops_identify _⟩
  | cons v vs => exact ⟨s, .done _ s, rfl⟩

/-- What is reported before an outcome is made of a failure changes nothing of the outcome. -/
theorem runs_failed_logged (r : Record) (f : Failure) (values : List Value) (s : Store) :
    ∃ t, Runs Value.apply (failed f values) (s.logged r) (.ok (captured s f values)) t ∧
      t.loops = s.loops := by
  have h := runs_failed f values (s.logged r)
  unfold captured at h ⊢
  rw [s.identify_logged r] at h
  exact ⟨_, h, (s.logged r).loops_identify _⟩

theorem exists_runs_settle_logged (r : Record) (values : List Value) (s : Store) :
    ∃ t, Runs Value.apply (settle values) (s.logged r) (.ok (settled s values)) t := by
  cases values with
  | nil =>
    obtain ⟨t, h, -⟩ := runs_failed_logged r .noResult [] s
    exact ⟨t, h⟩
  | cons v vs => exact ⟨_, .done _ _⟩

/-- If what follows an attempt answers whatever the attempt shows, the end of the attempt decides. -/
theorem exists_runs_attempt_iff {a : Action α} {k : Except Failure α → Action β}
    {conclude : Store → Except Failure α → β}
    (h : ∀ o u, Runs Value.apply a s o u → ∃ t, Runs Value.apply (k o) u (.ok (conclude u o)) t)
    {r : Except Failure β} :
    (∃ t, Runs Value.apply (a.attempt >>= k) s r t) ↔
      ∃ o u, Runs Value.apply a s o u ∧ r = .ok (conclude u o) := by
  constructor
  · rintro ⟨t, hrun⟩
    obtain ⟨o, u, ho, hk⟩ | ⟨f, rfl, hf⟩ := Action.runs_bind_iff.1 hrun
    · obtain ⟨q, hq, ha⟩ := Action.runs_attempt_iff.1 ho
      obtain rfl : o = q := Except.ok.inj hq
      obtain ⟨v, hv⟩ := h o u ha
      exact ⟨o, u, ha, (hk.unique hv).1⟩
    · obtain ⟨q, hq, -⟩ := Action.runs_attempt_iff.1 hf
      cases hq
  · rintro ⟨o, u, ha, rfl⟩
    obtain ⟨t, hk⟩ := h o u ha
    exact ⟨t, (Action.runs_attempt_iff.2 ⟨o, rfl, ha⟩).bind hk⟩

theorem exists_runs_runCaught_iff (program handlers limit : Value) {r : Ending} :
    (∃ t, Runs Value.apply (runCaught program handlers limit) s r t) ↔
      ∃ o u, Runs Value.apply (run program handlers limit) s o u ∧ r = .ok (concluded u o) := by
  refine exists_runs_attempt_iff fun o u _ => ?_
  cases o with
  | ok v => exact ⟨_, (runs_identify v u).bind (.done _ _)⟩
  | error f =>
    obtain ⟨t, h, -⟩ := runs_failed_logged _ f [] u
    exact ⟨t, .read (.write h)⟩

theorem runs_bind_ok_iff {a : Action α} {k : α → Action β} {x : α} {u : Store} {r : Except Failure β}
    (h : Runs Value.apply a s (.ok x) u) :
    Runs Value.apply (a.bind k) s r t ↔ Runs Value.apply (k x) u r t := by
  refine ⟨fun hrun => ?_, h.bind⟩
  rcases Action.runs_bind_iff.1 hrun with ⟨y, w, hy, hk⟩ | ⟨f, -, hf⟩
  · obtain ⟨hxy, rfl⟩ := hy.unique h
    cases hxy
    exact hk
  · cases (hf.unique h).1

theorem exists_runs_truth (v : Value) (s : Store) :
    ∃ b, Runs Value.apply (Action.truth v) s (.ok b) s := by
  cases v with
  | list tag items =>
    unfold Action.truth Action.itemsNow
    by_cases htag : tag = 0
    · simp only [htag, if_true]
      exact ⟨_, .done _ s⟩
    · simp only [htag, if_false]
      exact ⟨_, .read (.done _ s)⟩
  | dict tag entries =>
    unfold Action.truth Action.entriesNow
    by_cases htag : tag = 0
    · simp only [htag, if_true]
      exact ⟨_, .done _ s⟩
    · simp only [htag, if_false]
      exact ⟨_, .read (.done _ s)⟩
  | _ => exact ⟨_, .done _ s⟩

/-- A run has a host before anything of it can fail. -/
theorem exists_runs_hosting (scheduler : Value) (s : Store) :
    ∃ host completed v, Runs Value.apply (hosting scheduler) s (.ok (host, completed)) v := by
  obtain ⟨given, hgiven⟩ := exists_runs_truth scheduler s
  cases given with
  | true => exact ⟨scheduler, s.completed.size, _, hgiven.bind (.read (.write (.done _ _)))⟩
  | false =>
    exact ⟨.agenda s.agendas.size, s.completed.size, _, hgiven.bind
      (.read (.write (.read (.write (.read (.write (.done _ _)))))))⟩

/-- When the flows of a run have ended on an agenda, its time can be told. -/
theorem exists_runs_time {program handlers host v : Value} {completed : Nat} {u : Store}
    (h : Runs Value.apply (onAgenda program handlers host completed) s (.ok v) u) :
    ∃ now, Runs Value.apply (Host.time host) u (.ok now) u := by
  rcases Action.runs_bind_iff.1 h with ⟨x, w, -, hdrain⟩ | ⟨f, hf, -⟩
  · cases host with
    | agenda address =>
      obtain ⟨cs, hdrain⟩ := hdrain.exists_traced
      have hdraining : Action.Traced (Host.drainingBody address 0) w cs (.ok v) u := hdrain
      obtain ⟨a, ha, -⟩ := pop?_of_traced_draining hdraining
      refine ⟨a.currentTime, .read ?_⟩
      simp only [ha]
      exact .done _ u
    | _ => cases hdrain
  · cases hf

/-- What the run of a scheduler makes of the end of its flows. -/
def conclude (host : Value) (completed : Nat) : Except Failure Value → Action Value
  | .error f => do
    debug ("run_scheduled failed: " ++ (← Action.shown (.failure f)).quoted)
    failed f (← completedAt completed)
  | .ok executed => do
    let count ← Action.shown executed
    let now ← Action.shown (← Host.time host)
    debug ("scheduler drained after " ++ count.plain ++ " tasks at t=" ++ now.plain)
    settle (← completedAt completed)

theorem runScheduled_eq (program handlers scheduler limit : Value) :
    runScheduled program handlers scheduler limit =
      (hosting scheduler).bind fun x => (checkRecursionLimit limit).bind fun _ =>
        (onAgenda program handlers x.1 x.2).attempt >>= conclude x.1 x.2 := by
  unfold runScheduled hosting
  show Action.bind _ _ = Action.bind (Action.bind _ _) _
  rw [Action.bind_assoc]
  congr 1
  funext given
  cases given <;> rfl

/-- After the limit has been accepted, the run on an agenda captures how its flows end; the failure of
a limit that is refused escapes. -/
theorem exists_runs_runScheduled_iff (program handlers scheduler limit : Value) (s : Store) :
    ∃ host completed v, Runs Value.apply (hosting scheduler) s (.ok (host, completed)) v ∧
      ∀ r, (∃ t, Runs Value.apply (runScheduled program handlers scheduler limit) s r t) ↔
        (∃ f t, Runs Value.apply (checkRecursionLimit limit) v (.error f) t ∧ r = .error f) ∨
        ∃ w o u, Runs Value.apply (checkRecursionLimit limit) v (.ok ()) w ∧
          Runs Value.apply (onAgenda program handlers host completed) w o u ∧
          r = .ok (concludedAt completed u o) := by
  obtain ⟨host, completed, v, hhosting⟩ := exists_runs_hosting scheduler s
  refine ⟨host, completed, v, hhosting, fun r => ?_⟩
  have hflows (w : Store) : (∃ t, Runs Value.apply
      ((onAgenda program handlers host completed).attempt >>= conclude host completed) w r t) ↔
      ∃ o u, Runs Value.apply (onAgenda program handlers host completed) w o u ∧
        r = .ok (concludedAt completed u o) := by
    refine exists_runs_attempt_iff fun o u ho => ?_
    cases o with
    | error f =>
      obtain ⟨t, h, -⟩ := runs_failed_logged _ f (u.completedAt completed) u
      exact ⟨t, .read (.write (.read h))⟩
    | ok executed =>
      obtain ⟨now, hnow⟩ := exists_runs_time ho
      obtain ⟨t, h⟩ := exists_runs_settle_logged _ (u.completedAt completed) u
      exact ⟨t, .read (hnow.bind (.read (.write (.read h))))⟩
  rw [runScheduled_eq]
  simp only [runs_bind_ok_iff hhosting, Action.runs_bind_iff (a := checkRecursionLimit limit)]
  constructor
  · rintro ⟨t, ⟨_, w, hlimit, hrun⟩ | ⟨f, rfl, hlimit⟩⟩
    · obtain ⟨o, u, ho, hr⟩ := (hflows w).1 ⟨t, hrun⟩
      exact .inr ⟨w, o, u, hlimit, ho, hr⟩
    · exact .inl ⟨f, t, hlimit, rfl⟩
  · rintro (⟨f, t, hlimit, rfl⟩ | ⟨w, o, u, hlimit, ho, hr⟩)
    · exact ⟨t, .inr ⟨f, rfl, hlimit⟩⟩
    · obtain ⟨t, hrun⟩ := (hflows w).2 ⟨o, u, ho, hr⟩
      exact ⟨t, .inl ⟨(), w, hlimit, hrun⟩⟩

section Loops

variable {program handlers : Value} {loop : Nat} {u v : Store}

/-- When the first flow fails before its first suspension, or while it begins others, the outcome is
known at once. -/
theorem runs_outcome_of_error {f : Failure}
    (hbegin : Runs Value.apply (begin program handlers (.loopHost loop) s.completed.size)
      { s with completed := s.completed.push [] } (.error f) u) :
    ∃ t, Runs Value.apply (outcomeOnLoop program handlers loop) s
      (.ok (captured u f (u.completedAt s.completed.size))) t ∧ t.loops = u.loops := by
  obtain ⟨t, h, hloops⟩ := runs_failed_logged
    ⟨"DEBUG", logComponent, "async_run failed: " ++ (u.show (.failure f)).quoted⟩
    f (u.completedAt s.completed.size) u
  exact ⟨t, .read (.write ((Action.runs_attempt_iff.2 ⟨_, rfl, hbegin⟩).bind
    (.read (.write (.read h))))), hloops⟩

/-- Otherwise the loop makes turns, and how its callbacks have ended decides. -/
theorem runs_outcome_of_turning {x : Value} {l : EventLoop}
    (hbegin : Runs Value.apply (begin program handlers (.loopHost loop) s.completed.size)
      { s with completed := s.completed.push [] } (.ok ()) u)
    (hturning : Runs Value.apply (Action.ask (.arrowOf (.turning loop)) []) u (.ok x) v)
    (hl : v.loops[loop]? = some l) :
    ∃ t, Runs Value.apply (outcomeOnLoop program handlers loop) s
      (.ok (concludedAt s.completed.size v (endingOf l))) t ∧ t.loops = v.loops := by
  suffices h : ∃ t, Runs Value.apply (match l.failure with
      | some f => do failed f (← completedAt s.completed.size)
      | none => do settle (← completedAt s.completed.size)) v
        (.ok (concludedAt s.completed.size v (endingOf l))) t ∧ t.loops = v.loops by
    obtain ⟨t, h, hloops⟩ := h
    refine ⟨t, .read (.write ((Action.runs_attempt_iff.2 ⟨_, rfl, hbegin⟩).bind
      (hturning.bind (.read ?_)))), hloops⟩
    simp only [hl]
    exact h
  unfold endingOf
  cases l.failure with
  | some f => exact ⟨_, .read (runs_failed f _ v), v.loops_identify _⟩
  | none =>
    obtain ⟨t, h, hloops⟩ := exists_runs_settle (v.completedAt s.completed.size) v
    exact ⟨t, .read h, hloops⟩

theorem owes_of_begin {o : Except Failure Unit} (ho : s.Owes loop 0)
    (h : Runs Value.apply (begin program handlers (.loopHost loop) s.completed.size)
      { s with completed := s.completed.push [] } o u) : u.Owes loop 0 :=
  Store.Owes.of_runs (s := { s with completed := s.completed.push [] }) ho
    (follows_begin (P := Balances loop) program handlers (.loopHost loop) s.completed.size) h

/-- Turns of the loop do not fail, and leave it idle. -/
theorem idle_of_turning {o : Ending} (ho : u.Owes loop 0)
    (h : Runs Value.apply (Action.ask (.arrowOf (.turning loop)) []) u o v) :
    o = .ok .nothing ∧ ∃ l, v.loops[loop]? = some l ∧ l.Idle := by
  obtain ⟨cs, h⟩ := h.exists_traced
  obtain ⟨inner, -, h⟩ := h.of_invoke
  exact idle_of_traced_turning ho h

/-- A run that has an outcome has begun, and if that has not failed, it has come through all turns of
the loop, which is idle then. -/
theorem exists_begun {r : Ending} (ho : s.Owes loop 0)
    (h : Runs Value.apply (outcomeOnLoop program handlers loop) s r t) :
    ∃ o u, Runs Value.apply (begin program handlers (.loopHost loop) s.completed.size)
        { s with completed := s.completed.push [] } o u ∧
      (o = .ok () → ∃ x v l, Runs Value.apply (Action.ask (.arrowOf (.turning loop)) []) u (.ok x) v ∧
        v.loops[loop]? = some l ∧ l.Idle) := by
  cases h with | read h => cases h with | write h =>
  change Runs Value.apply (Action.bind (Action.attempt _) _) _ r t at h
  rcases Action.runs_bind_iff.1 h with ⟨o, u, hattempt, hk⟩ | ⟨f, -, hattempt⟩
  · obtain ⟨q, hq, hbegin⟩ := Action.runs_attempt_iff.1 hattempt
    obtain rfl : o = q := Except.ok.inj hq
    refine ⟨o, u, hbegin, ?_⟩
    rintro rfl
    rcases Action.runs_bind_iff.1 hk with ⟨x, v, hturning, -⟩ | ⟨f, -, hturning⟩
    · obtain ⟨-, l, hl, hidle⟩ := idle_of_turning (owes_of_begin ho hbegin) hturning
      exact ⟨x, v, l, hturning, hl, hidle⟩
    · cases (idle_of_turning (owes_of_begin ho hbegin) hturning).1
  · obtain ⟨q, hq, -⟩ := Action.runs_attempt_iff.1 hattempt
    cases hq

/-- How the flows on a loop have ended, once its turns have. -/
theorem runs_endingOf {l : EventLoop} (hl : v.loops[loop]? = some l) :
    Runs Value.apply (do Action.ofExcept (endingOf (← Host.loopAt loop))) v (endingOf l) v := by
  refine .read ?_
  simp only [hl]
  show Runs Value.apply (Action.ofExcept (endingOf l)) v (endingOf l) v
  cases endingOf l with
  | ok x => exact .done x v
  | error f => exact .fail f v

/-- The outcome of a run on a loop is made of how its flows end. -/
theorem exists_runs_outcomeOnLoop_iff (ho : s.Owes loop 0) (program handlers : Value) (r : Ending) :
    (∃ t, Runs Value.apply (outcomeOnLoop program handlers loop) s r t) ↔
      ∃ o u, Runs Value.apply (onLoop program handlers loop s.completed.size)
          { s with completed := s.completed.push [] } o u ∧
        r = .ok (concludedAt s.completed.size u o) := by
  constructor
  · rintro ⟨t, h⟩
    obtain ⟨o, u, hbegin, hturned⟩ := exists_begun ho h
    cases o with
    | error f =>
      obtain ⟨t', h', -⟩ := runs_outcome_of_error hbegin
      exact ⟨.error f, u, hbegin.bind_error, (h.unique h').1⟩
    | ok x =>
      obtain ⟨x, v, l, hturning, hl, -⟩ := hturned rfl
      obtain ⟨t', h', -⟩ := runs_outcome_of_turning hbegin hturning hl
      exact ⟨endingOf l, v, hbegin.bind (hturning.bind (runs_endingOf hl)), (h.unique h').1⟩
  · rintro ⟨o, u, h, rfl⟩
    rcases Action.runs_bind_iff.1 h with ⟨x, v, hbegin, h⟩ | ⟨f, rfl, hbegin⟩
    · rcases Action.runs_bind_iff.1 h with ⟨y, w, hturning, h⟩ | ⟨f, -, hturning⟩
      · obtain ⟨-, l, hl, -⟩ := idle_of_turning (owes_of_begin ho hbegin) hturning
        obtain ⟨rfl, rfl⟩ := h.unique (runs_endingOf hl)
        obtain ⟨t, h', -⟩ := runs_outcome_of_turning hbegin hturning hl
        exact ⟨t, h'⟩
      · cases (idle_of_turning (owes_of_begin ho hbegin) hturning).1
    · obtain ⟨t, h', -⟩ := runs_outcome_of_error hbegin
      exact ⟨t, h'⟩

end Loops

end Ends

/-- Runners that answer an outcome make it of how the flows end, and of nothing else: a failure that
escapes from an evaluation or a host is the error, and without one the first of the values is the result.
They answer exactly when the flows end, and no failure escapes but that of a limit which is refused
before the run of a scheduler begins. -/
theorem runners_conclude (program handlers scheduler limit : Value) (s : Store) :
    (∀ r, (∃ t, Runs Value.apply (runCaught program handlers limit) s r t) ↔
      ∃ o u, Runs Value.apply (run program handlers limit) s o u ∧ r = .ok (concluded u o)) ∧
    (∃ host completed v, Runs Value.apply (hosting scheduler) s (.ok (host, completed)) v ∧
      ∀ r, (∃ t, Runs Value.apply (runScheduled program handlers scheduler limit) s r t) ↔
        (∃ f t, Runs Value.apply (checkRecursionLimit limit) v (.error f) t ∧ r = .error f) ∨
        ∃ w o u, Runs Value.apply (checkRecursionLimit limit) v (.ok ()) w ∧
          Runs Value.apply (onAgenda program handlers host completed) w o u ∧
          r = .ok (concludedAt completed u o)) ∧
    ∀ r, (∃ t, Runs Value.apply (outcomeOnLoop program handlers s.loops.size) s.withLoop r t) ↔
      ∃ o u, Runs Value.apply (onLoop program handlers s.loops.size s.completed.size)
          { s.withLoop with completed := s.completed.push [] } o u ∧
        r = .ok (concludedAt s.completed.size u o) :=
  ⟨fun _ => exists_runs_runCaught_iff program handlers limit,
    exists_runs_runScheduled_iff program handlers scheduler limit s,
    exists_runs_outcomeOnLoop_iff s.owes_withLoop program handlers⟩

end Run

end AlgebraicEffects
