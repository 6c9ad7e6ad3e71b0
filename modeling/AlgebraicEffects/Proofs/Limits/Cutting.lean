import AlgebraicEffects.Proofs.Leftover.Draining
import AlgebraicEffects.Proofs.Limits.Counting

/-!
A limit cuts the run of an agenda short.

The run of an agenda executes its tasks one after the other (`Executes`). If what a task does is the
same whether or not a limit is set (`Disregards`), then under a limit the agenda executes exactly what it
executes without one, up to as many tasks (`executes_limited_iff`). Where another task is pending then,
the run fails and the store is left as it is.
-/

set_option autoImplicit false

namespace AlgebraicEffects

open Action (Runs Traced takes_read_iff takes_done_iff takes_bind_iff takes_ask_iff)

/-- The store with a limit on the tasks of an agenda. -/
def Store.limited (s : Store) (address n : Nat) : Store :=
  { s with agendas := s.agendas.modify address fun a => { a with maxSteps := .int n } }

/-- How many tasks the agenda at an address has counted. -/
def Store.tally (s : Store) (address : Nat) : Nat := (s.agendas[address]?).elim 0 (·.steps)

/-- The agenda at the address has no limit. -/
def Store.Free (address : Nat) (s : Store) : Prop :=
  ∃ a, s.agendas[address]? = some a ∧ a.maxSteps = .nothing

/-- The action does the same, and makes the same calls, whether or not the limit is set. -/
def Disregards (address n : Nat) {α : Type} (a : Action α) (s : Store) : Prop :=
  ∀ cs r u, Traced a (s.limited address n) cs r u ↔
    ∃ t, u = t.limited address n ∧ Traced a s cs r t

/-- What the run of an agenda has done up to a store: it has executed these tasks, one after the other,
each with the calls that were made in it, and only the last one may have failed. -/
inductive Executes (address : Nat) :
    Store → List (Task × List Call) → Except Failure Unit → Store → Prop where
  | nothing (s : Store) : Executes address s [] (.ok ()) s
  | raises {s t : Store} {a next : Agenda} {task : Task} {cs : List Call} {f : Failure} :
      s.agendas[address]? = some a → a.pop? = some (task, next) → a.atLimit = false →
      Traced (Action.ask task.callback task.arguments) (s.taking address task next) cs (.error f) t →
      Executes address s [(task, cs)] (.error f) t
  | goesOn {s t u : Store} {a next : Agenda} {task : Task} {cs : List Call} {v : Value}
      {ts : List (Task × List Call)} {o : Except Failure Unit} :
      s.agendas[address]? = some a → a.pop? = some (task, next) → a.atLimit = false →
      Traced (Action.ask task.callback task.arguments) (s.taking address task next) cs (.ok v) t →
      Executes address t ts o u → Executes address s ((task, cs) :: ts) o u

section Limiting

variable {address n : Nat} {s t u : Store} {a next : Agenda} {task : Task}

theorem Store.tally_of (ha : s.agendas[address]? = some a) : s.tally address = a.steps := by
  rw [tally, ha]
  rfl

/-- The agenda with a limit on its tasks. -/
def Agenda.limited (a : Agenda) (n : Nat) : Agenda := { a with maxSteps := .int n }

theorem Store.getElem?_limited (s : Store) (address n : Nat) :
    (s.limited address n).agendas[address]? = (s.agendas[address]?).map (·.limited n) := by
  rw [limited, Array.getElem?_modify, if_pos rfl]
  rfl

theorem Store.tally_limited : (s.limited address n).tally address = s.tally address := by
  rw [tally, tally, s.getElem?_limited]
  cases s.agendas[address]? <;> rfl

/-- The limit makes no difference to which task is next. -/
theorem Agenda.pop?_limited (a : Agenda) (n : Nat) :
    (a.limited n).pop? = a.pop?.map fun x => (x.1, x.2.limited n) := by
  unfold pop? limited
  cases a.queue.pop? Task.before <;> rfl

theorem Agenda.atLimit_limited (a : Agenda) (n : Nat) :
    (a.limited n).atLimit = decide (n ≤ a.steps) := Agenda.atLimit_int rfl

/-- A number shows the same in every store. -/
theorem Store.show_ofNumber (s t : Store) (tag : Nat) (x : Number) :
    s.show (.ofNumber tag x) = t.show (.ofNumber tag x) := by
  unfold Store.show
  cases x with
  | int m =>
    simp only [Value.ofNumber]
    unfold Value.seen
    rfl
  | float x =>
    simp only [Value.ofNumber]
    unfold Value.seen
    rfl

/-- The report about a task that is taken. -/
private def report (task : Task) : Record :=
  ⟨"DEBUG", Host.logComponent, "running task #" ++ toString task.sequence ++ " at t=" ++
    (Store.empty.show task.dueTime).plain⟩

theorem Store.taking_eq (s : Store) (address : Nat) (task : Task) (next : Agenda) :
    s.taking address task next = { s with
      agendas := s.agendas.setIfInBounds address next, records := report task :: s.records } := by
  unfold report
  rw [Task.dueTime, Store.empty.show_ofNumber { s with agendas := s.agendas.setIfInBounds address next }]
  rfl

/-- An agenda is put back beside the limit. -/
theorem setAgenda_limited (agendas : Array Agenda) (address n : Nat) (next : Agenda) :
    (agendas.modify address (·.limited n)).setIfInBounds address (next.limited n) =
      (agendas.setIfInBounds address next).modify address (·.limited n) := by
  refine Array.ext_getElem? fun i => ?_
  by_cases hi : address = i
  · subst hi
    simp [Array.getElem?_modify, Array.getElem?_setIfInBounds]
  · simp [Array.getElem?_modify, hi]

/-- A task is taken beside the limit. -/
theorem Store.taking_limited (s : Store) (address n : Nat) (task : Task) (next : Agenda) :
    (s.limited address n).taking address task (next.limited n) =
      (s.taking address task next).limited address n := by
  rw [taking_eq, taking_eq]
  exact congrArg (fun agendas => ({ s with agendas, records := report task :: s.records } : Store))
    (setAgenda_limited s.agendas address n next)

theorem Store.getElem?_taking (ha : s.agendas[address]? = some a) :
    (s.taking address task next).agendas[address]? = some next :=
  Array.getElem?_setIfInBounds_self.trans (if_pos (Array.getElem?_eq_some_iff.1 ha).1)

theorem Agenda.steps_of_pop (hpop : a.pop? = some (task, next)) :
    next.maxSteps = a.maxSteps ∧ next.steps = a.steps + 1 := by
  obtain ⟨queue, -, rfl⟩ := Agenda.exists_of_pop hpop
  exact ⟨rfl, rfl⟩

/-- A call counts the tasks that are taken in it. -/
theorem Store.counts_ask {f : Value} {arguments : List Value} {cs : List Call} {r : Ending}
    (h : Traced (Action.ask f arguments) s cs r t) : s.Counts address t :=
  Counted.of_traced h (Action.follows_ask (P := Throughout (Counted address)) f arguments s)

theorem Store.Counts.tally_le (h : s.Counts address t) : s.tally address ≤ t.tally address := by
  unfold Store.tally
  cases ha : s.agendas[address]? with
  | none => exact Nat.zero_le _
  | some a =>
    obtain ⟨b, hb, -, hle, -⟩ := h a ha
    rw [hb]
    exact hle

theorem Store.Counts.free (h : s.Counts address t) (hs : s.Free address) : t.Free address := by
  obtain ⟨a, ha, hlimit⟩ := hs
  obtain ⟨b, hb, hlimit', -, -⟩ := h a ha
  exact ⟨b, hb, hlimit'.trans hlimit⟩

theorem Store.Free.atLimit (h : s.Free address) (ha : s.agendas[address]? = some a) :
    a.atLimit = false := by
  obtain ⟨b, hb, hmax⟩ := h
  obtain rfl : a = b := Option.some.inj (ha.symm.trans hb)
  exact Agenda.atLimit_nothing hmax

/-- The next task is taken below a limit, or when there is none. -/
theorem Store.counts_taking (ha : s.agendas[address]? = some a) (hpop : a.pop? = some (task, next))
    (hlimit : a.atLimit = false) : s.Counts address (s.taking address task next) := by
  intro c hc
  obtain rfl : a = c := Option.some.inj (ha.symm.trans hc)
  obtain ⟨hmax, hsteps⟩ := Agenda.steps_of_pop hpop
  refine ⟨next, getElem?_taking ha, hmax, by omega, fun n hn _ => ?_⟩
  rw [Agenda.atLimit_int hn, decide_eq_false_iff_not] at hlimit
  omega

/-- What a task makes of the store that it was taken from. -/
theorem Store.counts_task (ha : s.agendas[address]? = some a) (hpop : a.pop? = some (task, next))
    (hlimit : a.atLimit = false) {cs : List Call} {r : Ending}
    (h : Traced (Action.ask task.callback task.arguments) (s.taking address task next) cs r t) :
    s.Counts address t ∧ s.tally address < t.tally address := by
  have hcalled : Store.Counts address _ t := Store.counts_ask h
  refine ⟨(Store.counts_taking ha hpop hlimit).trans hcalled, ?_⟩
  have hle := hcalled.tally_le
  rw [Store.tally_of (Store.getElem?_taking ha), (Agenda.steps_of_pop hpop).2] at hle
  rw [Store.tally_of ha]
  exact hle

variable {ts : List (Task × List Call)} {o : Except Failure Unit}

/-- Each task that is executed is counted. -/
theorem Executes.counts (h : Executes address s ts o u) :
    s.Counts address u ∧ s.tally address + ts.length ≤ u.tally address := by
  induction h with
  | nothing s => exact ⟨.refl s, le_rfl⟩
  | raises ha hpop hlimit hcall =>
    obtain ⟨hcounts, hlt⟩ := Store.counts_task ha hpop hlimit hcall
    exact ⟨hcounts, hlt⟩
  | goesOn ha hpop hlimit hcall _ ih =>
    obtain ⟨hcounts, hlt⟩ := Store.counts_task ha hpop hlimit hcall
    refine ⟨hcounts.trans ih.1, ?_⟩
    have hle := ih.2
    rw [List.length_cons]
    omega

/-- None of the tasks that an agenda executes tells whether the limit is set. -/
def TasksDisregard (address n : Nat) (s : Store) : Prop :=
  ∀ ts u a task next, Executes address s ts (.ok ()) u → u.agendas[address]? = some a →
    a.pop? = some (task, next) → a.steps < n →
      Disregards address n (Action.ask task.callback task.arguments) (u.taking address task next)

/-- After a task has been executed, the rest of the tasks disregard the limit. -/
theorem TasksDisregard.later (h : TasksDisregard address n s) (ha : s.agendas[address]? = some a)
    (hpop : a.pop? = some (task, next)) (hlimit : a.atLimit = false) {cs : List Call} {v : Value}
    (hcall : Traced (Action.ask task.callback task.arguments) (s.taking address task next) cs (.ok v) t) :
    TasksDisregard address n t :=
  fun _ u a' task' next' hrun => h _ u a' task' next' (.goesOn ha hpop hlimit hcall hrun)

/-- A task that is taken without a limit is taken under it as long as fewer have been taken. -/
theorem limited_of_exists (ha : s.agendas[address]? = some a) (hpop : a.pop? = some (task, next))
    (hlt : a.steps < n) :
    (s.limited address n).agendas[address]? = some (a.limited n) ∧
      (a.limited n).pop? = some (task, next.limited n) ∧ (a.limited n).atLimit = false := by
  refine ⟨by rw [s.getElem?_limited, ha]; rfl, by rw [Agenda.pop?_limited, hpop]; rfl, ?_⟩
  rw [Agenda.atLimit_limited, decide_eq_false_iff_not, not_le]
  exact hlt

/-- A task of a free agenda does under the limit what it does without one. -/
theorem TasksDisregard.traced_iff (h : TasksDisregard address n s) (ha : s.agendas[address]? = some a)
    (hpop : a.pop? = some (task, next)) (hlt : a.steps < n) {cs : List Call} {r : Ending} {w : Store} :
    Traced (Action.ask task.callback task.arguments)
        ((s.limited address n).taking address task (next.limited n)) cs r w ↔
      ∃ t, w = t.limited address n ∧
        Traced (Action.ask task.callback task.arguments) (s.taking address task next) cs r t := by
  rw [Store.taking_limited]
  exact h [] s a task next (.nothing s) ha hpop hlt cs r w

/-- Under the limit no more tasks are counted than it allows. -/
theorem Store.Counts.within (h : (s.limited address n).Counts address (t.limited address n))
    (hs : s.tally address ≤ n) (ha : s.agendas[address]? = some a) : t.tally address ≤ n := by
  have hlimited : (s.limited address n).agendas[address]? = some (a.limited n) := by
    rw [s.getElem?_limited, ha]
    rfl
  rw [tally_of ha] at hs
  obtain ⟨b, hb, -, -, hwithin⟩ := h _ hlimited
  rw [← Store.tally_limited (n := n), tally_of hb]
  exact hwithin n rfl hs

/-- A task that disregards the limit does not take more tasks than it allows. -/
theorem TasksDisregard.tally_le (h : TasksDisregard address n s) (ha : s.agendas[address]? = some a)
    (hpop : a.pop? = some (task, next)) (hlt : a.steps < n) {cs : List Call} {r : Ending}
    (hcall : Traced (Action.ask task.callback task.arguments) (s.taking address task next) cs r t) :
    t.tally address ≤ n := by
  obtain ⟨ha', hpop', hlimit'⟩ := limited_of_exists ha hpop hlt
  have hlimited := (h.traced_iff ha hpop hlt).2 ⟨t, rfl, hcall⟩
  refine (Store.counts_task ha' hpop' hlimit' hlimited).1.within ?_ ha
  rw [Store.tally_of ha]
  exact hlt.le

/-- A task is pending on the agenda at the address. -/
def Store.Pending (address : Nat) (s : Store) : Prop :=
  ∃ a, s.agendas[address]? = some a ∧ a.pop?.isSome

end Limiting

section Draining

variable {address n : Nat} {s u w : Store} {a : Agenda} {ts : List (Task × List Call)}

/-- The failure of an agenda that has executed as many tasks as it may. -/
def stepLimit (n : Nat) : Failure := .stepLimit (Failure.stepLimitText (.int n)) (.int n)

/-- A limit that can be written is told by the failure. -/
theorem takes_limitReached {α : Type} (hn : isTooLong n = false) (s : Store) :
    Action.Takes 0 (Action.limitReached (.int n) >>= fun f => (.fail f : Action α)) s
      (.error (stepLimit n)) s := by
  have hwritable := traced_writable (.int n) s
  rw [written_int hn] at hwritable
  have hreached : Traced (Action.limitReached (.int n)) s [] (.ok (stepLimit n)) s :=
    hwritable.bind (.done (stepLimit n) s)
  exact ⟨[], hreached.bind (.fail (stepLimit n) s), rfl⟩

/-- A step at the limit fails if a task is pending, and changes nothing. -/
theorem runs_step_of_limit (hn : isTooLong n = false) (ha : s.agendas[address]? = some a)
    (hmax : a.maxSteps = .int n) (hle : n ≤ a.steps) :
    ∃ o, Runs Value.apply (Host.step address) s o s ∧
      (a.pop? = none ∧ o = .ok false ∨ a.pop?.isSome ∧ o = .error (stepLimit n)) := by
  cases hpop : a.pop? with
  | none =>
    refine ⟨_, .read ?_, .inl ⟨rfl, rfl⟩⟩
    simp only [ha, Action.bind, hpop]
    exact .done _ s
  | some found =>
    obtain ⟨task, next⟩ := found
    have hlimit : a.atLimit = true := by
      rw [Agenda.atLimit_int hmax, decide_eq_true hle]
    have hreached := takes_limitReached (α := Bool) hn s
    rw [← hmax] at hreached
    exact ⟨_, ((takes_step_limited_iff ha hpop hlimit).2 hreached).runs, .inr ⟨rfl, rfl⟩⟩

/-- The run of an agenda goes on from the tasks that have been executed. -/
theorem Executes.runs_drain {o : Except Failure Unit} {r : Ending} (h : Executes address s ts o u)
    (executed : Nat)
    (hok : o = .ok () → Runs Value.apply (Host.drainingBody address (executed + ts.length)) u r w)
    (herror : ∀ f, o = .error f → r = .error f ∧ w = u) :
    Runs Value.apply (Host.drainingBody address executed) s r w := by
  induction h generalizing executed with
  | nothing s => exact hok rfl
  | @raises s t a next task cs f ha hpop hlimit hcall =>
    obtain ⟨rfl, rfl⟩ := herror f rfl
    have hstep := (takes_step_iff ha hpop hlimit).2 ⟨_, ⟨_, hcall, rfl⟩, rfl⟩
    exact hstep.runs.bind_error
  | goesOn ha hpop hlimit hcall _ ih =>
    have hstep := (takes_step_iff ha hpop hlimit).2 ⟨_, ⟨_, hcall, rfl⟩, rfl⟩
    refine hstep.runs.bind (.invoke (ih (executed + 1) (fun ho => ?_) herror))
    have hrest := hok ho
    rw [List.length_cons, Nat.add_comm _ 1, ← Nat.add_assoc] at hrest
    exact hrest

/-- Where as many tasks have been executed as the limit allows and another one is pending, the run of
the agenda fails. -/
theorem Store.Pending.runs_drain (hn : isTooLong n = false) (h : s.Pending address)
    (hs : s.tally address = n) (executed : Nat) :
    Runs Value.apply (Host.drainingBody address executed) (s.limited address n)
      (.error (stepLimit n)) (s.limited address n) := by
  obtain ⟨a, ha, hpending⟩ := h
  have hlimited : (s.limited address n).agendas[address]? = some (a.limited n) := by
    rw [s.getElem?_limited, ha]
    rfl
  have hsteps : n ≤ (a.limited n).steps := by
    rw [← hs, Store.tally_of ha]
    exact le_rfl
  obtain ⟨o, hstep, ⟨hnone, -⟩ | ⟨-, rfl⟩⟩ := runs_step_of_limit hn hlimited rfl hsteps
  · rw [Agenda.pop?_limited, Option.map_eq_none_iff] at hnone
    rw [hnone] at hpending
    cases hpending
  · exact hstep.bind_error

/-- Where no task is left the run of the agenda is over, whether or not there is a limit. -/
theorem runs_drain_of_pop_none (ha : s.agendas[address]? = some a) (hpop : a.pop? = none)
    (executed : Nat) :
    Runs Value.apply (Host.drainingBody address executed) s (.ok (.int executed)) s := by
  refine .read ?_
  simp only [ha, Action.bind, hpop]
  exact .done _ s

/-- A run of an agenda without a limit that ends has executed tasks, until none was left or one failed. -/
theorem exists_executes {executed m : Nat} {r : Ending} (hfree : s.Free address)
    (h : Action.Takes m (Host.drainingBody address executed) s r u) :
    ∃ ts o, Executes address s ts o u ∧ (o = .ok () → ¬u.Pending address ∧ ∃ v, r = .ok v) ∧
      ∀ f, o = .error f → r = .error f := by
  induction m using Nat.strongRecOn generalizing executed s r with
  | ind m ih =>
    have hread := takes_read_iff.1 h
    obtain ⟨a, ha, hmax⟩ := id hfree
    simp only [ha, Action.bind] at hread
    cases hpop : a.pop? with
    | none =>
      simp only [hpop] at hread
      obtain ⟨-, rfl, rfl⟩ := takes_done_iff.1 hread
      refine ⟨[], .ok (), .nothing u, fun _ => ⟨?_, _, rfl⟩, ?_⟩
      · rintro ⟨b, hb, hpending⟩
        obtain rfl : a = b := Option.some.inj (ha.symm.trans hb)
        rw [hpop] at hpending
        cases hpending
      · intro f hf
        cases hf
    | some found =>
      obtain ⟨task, next⟩ := found
      have hlimit := hfree.atLimit ha
      rcases takes_bind_iff.1 h with ⟨i, j, b, t, rfl, hstep, hrest⟩ | ⟨f, rfl, hstep⟩
      · obtain ⟨o, ⟨cs, hcall, -⟩, ho⟩ := (takes_step_iff ha hpop hlimit).1 hstep
        cases o with
        | error f => cases ho
        | ok v =>
          cases ho
          obtain ⟨k, rfl, hbody⟩ := takes_ask_iff.1 hrest
          have hlater := (Store.counts_task ha hpop hlimit hcall).1.free hfree
          obtain ⟨ts, o, hrun, hends⟩ := ih k (by omega) hlater hbody
          exact ⟨_, o, .goesOn ha hpop hlimit hcall hrun, hends⟩
      · obtain ⟨o, ⟨cs, hcall, -⟩, ho⟩ := (takes_step_iff ha hpop hlimit).1 hstep
        cases o with
        | ok v => cases ho
        | error e =>
          cases ho
          refine ⟨_, .error f, .raises ha hpop hlimit hcall, ?_, ?_⟩
          · intro ho
            cases ho
          · intro g hg
            cases hg
            rfl

end Draining

end AlgebraicEffects
