import AlgebraicEffects.Proofs.Limits.Cutting
import AlgebraicEffects.Proofs.Queue.Histories
import AlgebraicEffects.Proofs.Queue.Likeness

/-!
An agenda whose callbacks raise.

An agenda takes its next task, counts it and puts its clock forward before it calls the task, so a call
that fails leaves the agenda as it is between two steps. Main statements: if a callback takes no tasks
itself then its task alone is gone, and what it has scheduled is pending beside what was
(`TakesNext.spends`); and to run an agenda again after each failure until a run returns is to execute
its tasks one after the other, whichever way they end (`runsAgain_iff`).
-/

set_option autoImplicit false

namespace AlgebraicEffects

open Action (Runs)

/-- A task that has been executed: the agenda while the task was called, and how the call ended. -/
structure Execution where
  task : Task
  agenda : Agenda
  ending : Ending

/-- The next task of the agenda at the address is taken and called, and the call ends. -/
inductive TakesNext (address : Nat) (s : Store) : Execution → Store → Prop where
  | ends {a next : Agenda} {task : Task} {o : Ending} {t : Store} :
      s.agendas[address]? = some a → a.pop? = some (task, next) → a.atLimit = false →
      Runs Value.apply (Action.ask task.callback task.arguments) (s.taking address task next) o t →
      TakesNext address s ⟨task, next, o⟩ t

/-- Tasks of the agenda at the address are executed one after the other, whichever way they end. -/
inductive Persists (address : Nat) : Store → List Execution → Store → Prop where
  | nothing (s : Store) : Persists address s [] s
  | goesOn {s t u : Store} {e : Execution} {es : List Execution} :
      TakesNext address s e t → Persists address t es u → Persists address s (e :: es) u

/-- The agenda at the address is run, and is run again after each failure, until a run of it returns. -/
inductive RunsAgain (address : Nat) : Store → List Failure → Store → Prop where
  | returns {s u : Store} {v : Value} :
      Runs Value.apply (Host.drain address) s (.ok v) u → RunsAgain address s [] u
  | again {s t u : Store} {f : Failure} {fs : List Failure} :
      Runs Value.apply (Host.drain address) s (.error f) t → RunsAgain address t fs u →
      RunsAgain address s (f :: fs) u

/-- The failure in which something has ended, if it has. -/
def raised {α : Type} : Except Failure α → List Failure
  | .ok _ => []
  | .error f => [f]

/-- The failures of tasks that have been executed. -/
def failures (es : List Execution) : List Failure := es.flatMap fun e => raised e.ending

/-- What has become of an agenda whose next task was called and scheduled these tasks: the one task is
gone and has been counted, the clock shows when it was due, and all else is pending that was or is new. -/
structure Agenda.Spends (a : Agenda) (task : Task) (tasks : List Task) (b : Agenda) : Prop where
  pending : (task :: b.queue.toList).Perm (a.queue.toList ++ tasks)
  numbered : tasks.map (·.sequence) = List.range' a.sequenceCounter tasks.length
  counter : b.sequenceCounter = a.sequenceCounter + tasks.length
  steps : b.steps = a.steps + 1
  clock : b.currentTime = task.dueTime
  limit : b.maxSteps = a.maxSteps

section Keeping

variable {address : Nat} {P : Store → Store → Prop} {α : Type} {action : Action α} {due : Option Task}
  {s t : Store} {r : Except Failure α}

/-- What is kept by everything that can happen to an agenda is kept along every run. -/
theorem Tended.kept (hrefl : ∀ s, P s s) (htrans : ∀ s t u, P s t → P t u → P s u)
    (hbecomes : ∀ s t happenings, s.Becomes address happenings t → P s t)
    (h : Runs Value.apply action s r t) (htended : Tended address due action s) : P s t := by
  induction h generalizing due with
  | done | fail => exact hrefl _
  | read _ ih => cases htended with | read htended => exact ih htended
  | write _ ih =>
    cases htended with
    | aside hchange htended | schedule hchange htended | take hchange htended =>
      exact htrans _ _ _ (hbecomes _ _ _ hchange) (ih htended)
  | call _ _ ihbody ih =>
    cases htended with
    | call hk | execute hk => exact htrans _ _ _ (ihbody (tends_apply address _ _ _)) (ih (hk _ _))

end Keeping

section Spending

variable {address : Nat} {s t : Store} {a b c : Agenda} {e : Execution}

/-- The agenda has gained tasks and nothing else has happened to it, or it has counted some. -/
def Agenda.Proceeds (a b : Agenda) : Prop := (∃ tasks, a.Gains tasks b) ∨ a.steps < b.steps

theorem Agenda.Proceeds.trans (h : a.Proceeds b) (g : b.Proceeds c) : a.Proceeds c := by
  rcases h with ⟨tasks, h⟩ | hlt
  · rcases g with ⟨more, g⟩ | hlt
    · exact .inl ⟨tasks ++ more, h.trans g⟩
    · exact .inr (h.unchanged.2.1 ▸ hlt)
  · rcases g with ⟨more, g⟩ | hmore
    · exact .inr (g.unchanged.2.1.symm ▸ hlt)
    · exact .inr (hlt.trans hmore)

theorem Agenda.Becomes.proceeds {happenings : List Happening} (h : a.Becomes happenings b) :
    a.Proceeds b := by
  cases h with
  | same => exact .inl ⟨[], .nothing a⟩
  | @scheduled now delay time timeTag callback arguments =>
    exact .inl ⟨[⟨time, timeTag, a.sequenceCounter, callback, arguments⟩], .scheduled rfl (.nothing _)⟩
  | taken hpop =>
    obtain ⟨-, hsteps⟩ := Agenda.steps_of_pop hpop
    exact .inr (by omega)

/-- What has become of the agenda at the address. -/
def Store.Proceeds (address : Nat) (s t : Store) : Prop :=
  ∀ a, s.agendas[address]? = some a → ∃ b, t.agendas[address]? = some b ∧ a.Proceeds b

theorem Store.Becomes.proceeds {happenings : List Happening} (h : s.Becomes address happenings t) :
    s.Proceeds address t := by
  intro a ha
  obtain ⟨b, hb, hab⟩ := h.exists_agenda ha
  exact ⟨b, hb, hab.proceeds⟩

/-- A call that counts no tasks has only scheduled some. -/
theorem exists_gains {f : Value} {arguments : List Value} {o : Ending}
    (h : Runs Value.apply (Action.ask f arguments) s o t) (ha : s.agendas[address]? = some a)
    (hcount : t.tally address = a.steps) :
    ∃ b tasks, t.agendas[address]? = some b ∧ a.Gains tasks b := by
  have hask : Tends address (Action.ask f arguments) :=
    Action.follows_ask (P := Tends address) f arguments
  have hproceeds : s.Proceeds address t := by
    refine Tended.kept (P := Store.Proceeds address) ?_ ?_ ?_ h (hask s)
    · exact fun s a ha => ⟨a, ha, .inl ⟨[], .nothing a⟩⟩
    · intro s t u hst htu a ha
      obtain ⟨b, hb, hab⟩ := hst a ha
      obtain ⟨c, hc, hbc⟩ := htu b hb
      exact ⟨c, hc, hab.trans hbc⟩
    · exact fun s t happenings hbecomes => hbecomes.proceeds
  obtain ⟨b, hb, ⟨tasks, hgains⟩ | hlt⟩ := hproceeds a ha
  · exact ⟨b, tasks, hb, hgains⟩
  · rw [Store.tally_of hb] at hcount
    omega

/-- A task that takes no others itself costs the agenda this one task, however it ends. -/
theorem TakesNext.spends (h : TakesNext address s e t) (hcount : t.tally address = e.agenda.steps) :
    ∃ a b tasks, s.agendas[address]? = some a ∧ t.agendas[address]? = some b ∧
      a.Spends e.task tasks b := by
  cases h with
  | @ends a next task o t ha hpop _ hcall =>
    obtain ⟨b, tasks, hb, hgains⟩ := exists_gains hcall (Store.getElem?_taking ha) hcount
    obtain ⟨queue, -, hnext⟩ := Agenda.exists_of_pop hpop
    obtain ⟨hnumbers, hcounter⟩ := hgains.numbered
    obtain ⟨hclock, hsteps, hlimit⟩ := hgains.unchanged
    rw [hnext] at hnumbers hcounter hclock hsteps hlimit
    refine ⟨a, b, tasks, ha, hb, ?_, hnumbers, hcounter, hsteps, hclock, hlimit⟩
    have hbeside := hgains.toList.cons task
    exact hbeside.trans ((Agenda.toList_queue_pop hpop).symm.append_right tasks)

/-- The next task is executed in at most one way. -/
theorem TakesNext.unique {e' : Execution} {t' : Store} (h : TakesNext address s e t)
    (g : TakesNext address s e' t') : e' = e ∧ t' = t := by
  cases h with
  | ends ha hpop _ hcall =>
    cases g with
    | ends hb hpop' _ hcall' =>
      obtain rfl := Option.some.inj (ha.symm.trans hb)
      obtain ⟨rfl, rfl⟩ := Prod.mk.inj (Option.some.inj (hpop.symm.trans hpop'))
      obtain ⟨rfl, rfl⟩ := hcall.unique hcall'
      exact ⟨rfl, rfl⟩

theorem TakesNext.pending (h : TakesNext address s e t) : s.Pending address := by
  cases h with
  | ends ha hpop => exact ⟨_, ha, hpop ▸ rfl⟩

/-- Where no task is pending, there is no next one. -/
theorem Store.Free.exists_pop_none (h : s.Free address) (hs : ¬s.Pending address) :
    ∃ a, s.agendas[address]? = some a ∧ a.pop? = none := by
  obtain ⟨a, ha, -⟩ := h
  cases hpop : a.pop? with
  | none => exact ⟨a, ha, hpop⟩
  | some next => exact absurd ⟨a, ha, hpop ▸ rfl⟩ hs

/-- A task that is executed leaves an agenda without a limit. -/
theorem TakesNext.free (h : TakesNext address s e t) (hfree : s.Free address) : t.Free address := by
  cases h with
  | ends ha hpop hlimit hcall =>
    obtain ⟨cs, hcall⟩ := hcall.exists_traced
    exact (Store.counts_task ha hpop hlimit hcall).1.free hfree

/-- A step of the agenda ends as the call of its task does. -/
theorem TakesNext.runs_step (h : TakesNext address s e t) :
    Runs Value.apply (Host.step address) s (e.ending.map fun _ => true) t := by
  cases h with
  | ends ha hpop hlimit hcall =>
    obtain ⟨n, hcall⟩ := hcall.exists_takes
    exact ((takes_step_iff ha hpop hlimit).2 ⟨_, hcall, rfl⟩).runs

/-- A run of the agenda that comes to a task that fails ends with it. -/
theorem TakesNext.runs_drain (h : TakesNext address s e t) {f : Failure} (hf : e.ending = .error f)
    {start : Store} {ts : List (Task × List Call)} (hrun : Executes address start ts (.ok ()) s) :
    Runs Value.apply (Host.drain address) start (.error f) t := by
  have hstep := h.runs_step
  rw [hf] at hstep
  refine hrun.runs_drain 0 (fun _ => hstep.bind_error) ?_
  rintro g ⟨⟩

end Spending

section Persisting

variable {address : Nat} {s t u : Store} {es ds : List Execution} {fs : List Failure}

theorem failures_append (es ds : List Execution) : failures (es ++ ds) = failures es ++ failures ds :=
  List.flatMap_append

theorem Persists.trans (h : Persists address s es t) (g : Persists address t ds u) :
    Persists address s (es ++ ds) u := by
  induction h with
  | nothing s => exact g
  | goesOn hnext _ ih => exact .goesOn hnext (ih g)

theorem Persists.free (h : Persists address s es t) (hfree : s.Free address) : t.Free address := by
  induction h with
  | nothing s => exact hfree
  | goesOn hnext _ ih => exact ih (hnext.free hfree)

/-- One run executes tasks up to the first that fails. -/
theorem Executes.persists {ts : List (Task × List Call)} {o : Except Failure Unit}
    (h : Executes address s ts o u) : ∃ es, Persists address s es u ∧ failures es = raised o := by
  induction h with
  | nothing s => exact ⟨[], .nothing s, rfl⟩
  | raises ha hpop hlimit hcall =>
    exact ⟨[_], .goesOn (.ends ha hpop hlimit hcall.runs) (.nothing _), rfl⟩
  | goesOn ha hpop hlimit hcall _ ih =>
    obtain ⟨es, hpersists, hfailures⟩ := ih
    exact ⟨_ :: es, .goesOn (.ends ha hpop hlimit hcall.runs) hpersists, hfailures⟩

/-- A run executes tasks, and ends where none is left or with the failure of the last one. -/
theorem exists_persists {r : Ending} (hfree : s.Free address)
    (h : Runs Value.apply (Host.drain address) s r u) :
    ∃ es, Persists address s es u ∧ failures es = raised r ∧ ((∃ v, r = .ok v) → ¬u.Pending address) := by
  obtain ⟨n, h⟩ := h.exists_takes
  obtain ⟨ts, o, hexecutes, hreturns, hfails⟩ := exists_executes hfree h
  obtain ⟨es, hpersists, hfailures⟩ := hexecutes.persists
  cases o with
  | ok =>
    obtain ⟨hpending, v, rfl⟩ := hreturns rfl
    exact ⟨es, hpersists, hfailures, fun _ => hpending⟩
  | error f =>
    obtain rfl := hfails f rfl
    refine ⟨es, hpersists, hfailures, ?_⟩
    rintro ⟨v, ⟨⟩⟩

/-- All that is executed until a run returns is executed one task after the other. -/
theorem RunsAgain.exists_persists (hfree : s.Free address) (h : RunsAgain address s fs u) :
    ∃ es, Persists address s es u ∧ ¬u.Pending address ∧ failures es = fs := by
  induction h with
  | returns hrun =>
    obtain ⟨es, hpersists, hfailures, hpending⟩ := AlgebraicEffects.exists_persists hfree hrun
    exact ⟨es, hpersists, hpending ⟨_, rfl⟩, hfailures⟩
  | again hrun _ ih =>
    obtain ⟨es, hpersists, hfailures, -⟩ := AlgebraicEffects.exists_persists hfree hrun
    obtain ⟨ds, hrest, hpending, rfl⟩ := ih (hpersists.free hfree)
    refine ⟨es ++ ds, hpersists.trans hrest, hpending, ?_⟩
    rw [failures_append, hfailures]
    rfl

/-- One run goes on to the first failure, and what comes after it is left to further runs. -/
theorem RunsAgain.of_executes {a : Agenda} {ts : List (Task × List Call)} {o : Except Failure Unit}
    (ha : u.agendas[address]? = some a) (hpop : a.pop? = none) (h : Executes address s ts o t)
    (hends : o = .ok () ∧ t = u ∧ fs = [] ∨
      ∃ f rest, o = .error f ∧ fs = f :: rest ∧ RunsAgain address t rest u) :
    RunsAgain address s fs u := by
  rcases hends with ⟨rfl, rfl, rfl⟩ | ⟨f, rest, rfl, rfl, hrest⟩
  · refine .returns (h.runs_drain 0 (fun _ => runs_drain_of_pop_none ha hpop _) ?_)
    rintro f ⟨⟩
  · refine .again (h.runs_drain 0 ?_ ?_) hrest
    · rintro ⟨⟩
    · rintro g ⟨⟩
      exact ⟨rfl, rfl⟩

/-- Tasks that have been executed until none is left have been executed by one run up to the first
failure, and by further runs from there. -/
theorem Persists.exists_executes {a : Agenda} (h : Persists address s es u)
    (ha : u.agendas[address]? = some a) (hpop : a.pop? = none) :
    ∃ ts o t, Executes address s ts o t ∧ (o = .ok () ∧ t = u ∧ failures es = [] ∨
      ∃ f rest, o = .error f ∧ failures es = f :: rest ∧ RunsAgain address t rest u) := by
  induction h with
  | nothing s => exact ⟨[], .ok (), s, .nothing s, .inl ⟨rfl, rfl, rfl⟩⟩
  | goesOn hnext _ ih =>
    obtain ⟨ts, o, t, hexecutes, hends⟩ := ih ha
    cases hnext with
    | @ends b next task ending _ hb htask hlimit hcall =>
      obtain ⟨cs, hcall⟩ := hcall.exists_traced
      cases ending with
      | ok v => exact ⟨_, o, t, .goesOn hb htask hlimit hcall hexecutes, hends⟩
      | error f =>
        exact ⟨_, _, _, .raises hb htask hlimit hcall,
          .inr ⟨f, _, rfl, rfl, .of_executes ha hpop hexecutes hends⟩⟩

/-- Where the tasks have been executed and none is left, runs of the agenda have executed them. -/
theorem Persists.runsAgain (h : Persists address s es u) (hfree : s.Free address)
    (hu : ¬u.Pending address) : RunsAgain address s (failures es) u := by
  obtain ⟨a, ha, hpop⟩ := (h.free hfree).exists_pop_none hu
  obtain ⟨ts, o, t, hexecutes, hends⟩ := h.exists_executes ha hpop
  exact .of_executes ha hpop hexecutes hends

/-- To run an agenda again after each failure until a run returns is to execute its tasks one after the
other, whichever way they end, until none is left. -/
theorem runsAgain_iff (hfree : s.Free address) :
    RunsAgain address s fs u ↔
      ∃ es, Persists address s es u ∧ ¬u.Pending address ∧ failures es = fs := by
  refine ⟨RunsAgain.exists_persists hfree, ?_⟩
  rintro ⟨es, hpersists, hpending, rfl⟩
  exact hpersists.runsAgain hfree hpending

end Persisting

end AlgebraicEffects
