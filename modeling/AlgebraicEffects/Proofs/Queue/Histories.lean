import AlgebraicEffects.Proofs.Calls
import AlgebraicEffects.Proofs.Queue.Tending

/-!
The history of an agenda.

A history is made of calls from outside, one after the other, and of all that the machine does in them,
one step at a time; it may stop anywhere, also in the middle of a callback. Its log says what has
happened to one agenda and what has been called. Main statement: whatever is called, the log is that of
a stable event queue, each task that was taken is called next, and nothing is left when a run of the
agenda has returned (`history_stableQueue`).
-/

set_option autoImplicit false

namespace AlgebraicEffects

open Action hiding bind_assoc

/-- What the machine has before it: the action that is to be run, the continuations that wait for its
end, and the store. -/
structure Moment where
  action : Action Value
  pending : Action.Pending
  store : Store

/-- The moment after the next step of the machine, if the action has not ended. -/
def Moment.next? : Moment → Option Moment
  | ⟨.done _, [], _⟩ | ⟨.fail _, [], _⟩ => none
  | ⟨.done v, k :: ks, s⟩ => some ⟨k (.ok v), ks, s⟩
  | ⟨.fail f, k :: ks, s⟩ => some ⟨k (.error f), ks, s⟩
  | ⟨.read k, ks, s⟩ => some ⟨k s, ks, s⟩
  | ⟨.write change k, ks, s⟩ => some ⟨k, ks, change s⟩
  | ⟨.call f arguments k, ks, s⟩ => some ⟨f.apply arguments, k :: ks, s⟩

/-- The machine runs from moment to moment. -/
theorem run_of_next? {m n : Moment} (h : m.next? = some n) (fuel : Nat) :
    Action.run Value.apply (fuel + 1) m.action m.pending m.store =
      Action.run Value.apply fuel n.action n.pending n.store := by
  obtain ⟨action, pending, store⟩ := m
  cases action
  case done => cases pending <;> cases h; rfl
  case fail => cases pending <;> cases h; rfl
  all_goals cases h; rfl

/-- One step of the machine, with what happens in it. -/
inductive Moment.Step (address : Nat) : Moment → List Happening → Moment → Prop where
  | done {v : Value} {k : Ending → Action Value} {ks : Action.Pending} {s : Store} :
      Step address ⟨.done v, k :: ks, s⟩ [] ⟨k (.ok v), ks, s⟩
  | fail {f : Failure} {k : Ending → Action Value} {ks : Action.Pending} {s : Store} :
      Step address ⟨.fail f, k :: ks, s⟩ [] ⟨k (.error f), ks, s⟩
  | read {k : Store → Action Value} {ks : Action.Pending} {s : Store} :
      Step address ⟨.read k, ks, s⟩ [] ⟨k s, ks, s⟩
  | write {change : Store → Store} {k : Action Value} {ks : Action.Pending} {s : Store}
      {happenings : List Happening} :
      s.Becomes address happenings (change s) →
      Step address ⟨.write change k, ks, s⟩ happenings ⟨k, ks, change s⟩
  | call {f : Value} {arguments : Arguments Value} {k : Ending → Action Value} {ks : Action.Pending}
      {s : Store} :
      Step address ⟨.call f arguments k, ks, s⟩ [.called f arguments] ⟨f.apply arguments, k :: ks, s⟩

/-- What has happened since a store to the agenda at the address, up to a moment. When a call from
outside has ended, another one can be made; in between the agendas stay as they are. -/
inductive History (address : Nat) (start : Store) : List Happening → Moment → Prop where
  | call (f : Value) (arguments : Arguments Value) :
      History address start [.called f arguments] ⟨f.apply arguments, [], start⟩
  | step {log happenings : List Happening} {m n : Moment} :
      History address start log m → m.Step address happenings n →
      History address start (log ++ happenings) n
  | again {log : List Happening} {o : Ending} {s t : Store} (f : Value) (arguments : Arguments Value) :
      History address start log ⟨ofExcept o, [], s⟩ → t.agendas = s.agendas →
      History address start (log ++ [.called f arguments]) ⟨f.apply arguments, [], t⟩

section Executing

/-- The task that was taken last, if nothing has been called since. -/
def due (log : List Happening) : Option Task :=
  match log.getLast? with
  | some (.taken task) => some task
  | _ => none

variable {log : List Happening} {last : Happening} {task : Task}

@[simp] theorem due_taken : due (log ++ [.taken task]) = some task := by simp [due]

@[simp] theorem due_scheduled {delay : Number} : due (log ++ [.scheduled delay task]) = none := by
  simp [due]

@[simp] theorem due_called {f : Value} {arguments : Arguments Value} :
    due (log ++ [.called f arguments]) = none := by
  simp [due]

/-- Each task that was taken is called next, with its arguments. -/
def Executed (log : List Happening) : Prop :=
  ∀ past task rest, log = past ++ .taken task :: rest →
    rest = [] ∨ ∃ more, rest = .called task.callback (.of task.arguments) :: more

theorem executed_nil : Executed [] := fun past task rest h => by
  cases past <;> cases h

theorem Executed.concat (h : Executed log)
    (hlast : ∀ task, due log = some task → last = .called task.callback (.of task.arguments)) :
    Executed (log ++ [last]) := by
  intro past task rest hsplit
  rcases List.eq_nil_or_concat rest with rfl | ⟨rest, final, rfl⟩
  · exact .inl rfl
  · rw [List.concat_eq_append] at hsplit ⊢
    rw [← List.cons_append, ← List.append_assoc] at hsplit
    obtain ⟨hlog, hfinal⟩ := List.append_inj' hsplit rfl
    obtain rfl : last = final := (List.cons.inj hfinal).1
    rcases h past task rest hlog with rfl | ⟨more, rfl⟩
    · exact .inr ⟨[], by rw [hlast task (by rw [hlog, due_taken])]; rfl⟩
    · exact .inr ⟨more ++ [last], rfl⟩

end Executing

/-- What happens to an agenda can be told from its counters. -/
theorem Agenda.Becomes.counters {a b : Agenda} {happenings : List Happening}
    (h : a.Becomes happenings b) :
    happenings = [] ∧ b = a ∨
      (∃ delay task, happenings = [.scheduled delay task] ∧
        b.sequenceCounter = a.sequenceCounter + 1) ∨
      ∃ task, happenings = [.taken task] ∧ a.pop? = some (task, b) ∧
        b.sequenceCounter = a.sequenceCounter ∧ b.steps = a.steps + 1 := by
  cases h with
  | same => exact .inl ⟨rfl, rfl⟩
  | scheduled => exact .inr (.inl ⟨_, _, rfl, rfl⟩)
  | taken hpop =>
    refine .inr (.inr ⟨_, rfl, hpop, ?_⟩)
    obtain ⟨queue, -, rfl⟩ := Agenda.exists_of_pop hpop
    exact ⟨rfl, rfl⟩

/-- An agenda that has changed in one way has not changed in another one. -/
theorem Agenda.Becomes.same_kind {a b : Agenda} {happenings others : List Happening}
    (h : a.Becomes happenings b) (g : a.Becomes others b) :
    (others = [] → happenings = []) ∧ ∀ log, due (log ++ happenings) = due (log ++ others) := by
  rcases h.counters with ⟨rfl, hb⟩ | ⟨delay, task, rfl, hb⟩ | ⟨task, rfl, hpop, hb, hsteps⟩ <;>
    rcases g.counters with ⟨rfl, gb⟩ | ⟨_, other, rfl, gb⟩ | ⟨other, rfl, gpop, gb, gsteps⟩
  case inl.inl => exact ⟨id, fun log => rfl⟩
  case inr.inl.inr.inl => exact ⟨fun h => absurd h (List.cons_ne_nil _ _), fun log => by rw [due_scheduled, due_scheduled]⟩
  case inr.inr.inr.inr =>
    obtain rfl : task = other := congrArg Prod.fst (Option.some.inj (hpop.symm.trans gpop))
    exact ⟨id, fun log => rfl⟩
  all_goals
    subst_vars
    omega

/-- An agenda to which something happens while no task is due keeps that taken tasks are called. -/
theorem Executed.becomes {log happenings : List Happening} {a b : Agenda} (h : Executed log)
    (hdue : due log = none) (hbecomes : a.Becomes happenings b) : Executed (log ++ happenings) := by
  have hfree (last : Happening) : Executed (log ++ [last]) :=
    h.concat fun task htask => by rw [hdue] at htask; cases htask
  cases hbecomes with
  | same =>
    rw [List.append_nil]
    exact h
  | scheduled => exact hfree _
  | taken => exact hfree _

section Clocks

/-- What happens in a store to an agenda that is there happens to the agenda. -/
theorem Store.Becomes.exists_agenda {address : Nat} {happenings : List Happening} {s t : Store}
    {a : Agenda} (h : s.Becomes address happenings t) (ha : s.agendas[address]? = some a) :
    ∃ b, t.agendas[address]? = some b ∧ a.Becomes happenings b := by
  cases h with
  | absent hnone =>
    rw [ha] at hnone
    cases hnone
  | present ha' hb h =>
    rw [ha] at ha'
    cases ha'
    exact ⟨_, hb, h⟩

/-- What the clock of an agenda shows that started at a time: when the task was due that was taken last.
-/
def clockAfter (now : Number) (log : List Happening) : Number :=
  ((takenTasks log).getLast?.map Task.time).getD now

variable {now : Number} {log happenings : List Happening} {a b : Agenda}

theorem clockAfter_append_of_none (rest : List Happening) (h : takenTasks rest = []) :
    clockAfter now (log ++ rest) = clockAfter now log := by
  unfold clockAfter
  rw [takenTasks_append, h, List.append_nil]

theorem clockAfter_taken (task : Task) : clockAfter now (log ++ [.taken task]) = task.time := by
  unfold clockAfter
  rw [takenTasks_append, show takenTasks [.taken task] = [task] from rfl, List.getLast?_append]
  rfl

/-- The clock shows what it has to after the log, and each task was scheduled for the delay after what
the clock showed. -/
structure Clocked (now : Number) (log : List Happening) (a : Agenda) : Prop where
  shows : a.currentTime.number? = some (clockAfter now log)
  due : ∀ past delay task rest, log = past ++ .scheduled delay task :: rest →
    delay.less (.int 0) = false ∧ (clockAfter now past).add delay = .ok task.time

namespace Clocked

/-- What is said of each task that is scheduled is said of one more. -/
theorem due_concat {P : List Happening → Number → Task → Prop} {last : Happening}
    (h : ∀ past delay task rest, log = past ++ .scheduled delay task :: rest → P past delay task)
    (hlast : ∀ delay task, last = .scheduled delay task → P log delay task) (past : List Happening)
    (delay : Number) (task : Task) (rest : List Happening)
    (hsplit : log ++ [last] = past ++ .scheduled delay task :: rest) : P past delay task := by
  rcases List.eq_nil_or_concat rest with rfl | ⟨rest, final, rfl⟩
  · obtain ⟨rfl, hlog⟩ := List.append_inj' hsplit rfl
    exact hlast delay task (List.cons.inj hlog).1
  · rw [List.concat_eq_append, ← List.cons_append, ← List.append_assoc] at hsplit
    exact h past delay task rest (List.append_inj' hsplit rfl).1

theorem called (h : Clocked now log a) (f : Value) (arguments : Arguments Value) :
    Clocked now (log ++ [.called f arguments]) a where
  shows := by
    rw [clockAfter_append_of_none _ rfl]
    exact h.shows
  due := due_concat h.due fun delay task hlast => by cases hlast

theorem becomes (h : Clocked now log a) (hbecomes : a.Becomes happenings b) :
    Clocked now (log ++ happenings) b := by
  cases hbecomes with
  | same =>
    rw [List.append_nil]
    exact h
  | scheduled hnow hpositive htime =>
    refine ⟨?_, due_concat h.due fun delay task hlast => ?_⟩
    · rw [clockAfter_append_of_none _ rfl]
      exact h.shows
    · cases hlast
      cases hnow.symm.trans h.shows
      exact ⟨hpositive, htime⟩
  | taken hpop =>
    obtain ⟨queue, -, rfl⟩ := Agenda.exists_of_pop hpop
    refine ⟨?_, due_concat h.due fun delay task hlast => by cases hlast⟩
    rw [clockAfter_taken]
    exact number?_ofNumber _ _

end Clocked

/-- In every history the clock shows when the task was due that was taken last. -/
theorem History.clocked {address : Nat} {start : Store} {m : Moment} {startTime maxSteps : Value}
    (h : History address start log m)
    (hagenda : start.agendas[address]? = some (.starting startTime maxSteps))
    (hclock : startTime.number? = some now) :
    ∃ a, m.store.agendas[address]? = some a ∧ Clocked now log a := by
  have hstart : Clocked now [] (Agenda.starting startTime maxSteps) :=
    ⟨hclock, fun past delay task rest h => by cases past <;> cases h⟩
  induction h with
  | call f arguments => exact ⟨_, hagenda, hstart.called f arguments⟩
  | step _ hstep ih =>
    obtain ⟨a, ha, hclocked⟩ := ih
    cases hstep with
    | done | fail | read =>
      rw [List.append_nil]
      exact ⟨a, ha, hclocked⟩
    | call => exact ⟨a, ha, hclocked.called _ _⟩
    | write hbecomes =>
      obtain ⟨b, hb, hab⟩ := hbecomes.exists_agenda ha
      exact ⟨b, hb, hclocked.becomes hab⟩
  | again f arguments _ ht ih =>
    obtain ⟨a, ha, hclocked⟩ := ih
    exact ⟨a, (congrArg (·[address]?) ht).trans ha, hclocked.called f arguments⟩

end Clocks

section Keeping

variable {κ : Type} [LinearOrder κ]

/-- Each task that was scheduled is due at a time, which is not before what the clock showed. -/
def DueAhead (D : TimeDomain κ) (now : Number) (log : List Happening) : Prop :=
  ∀ past delay task rest, log = past ++ .scheduled delay task :: rest →
    D.Mem (clockAfter now past) → delay.less (.int 0) = false →
    (clockAfter now past).add delay = .ok task.time →
    D.Mem task.time ∧ D.rank (clockAfter now past) ≤ D.rank task.time

theorem DueAhead.before {D : TimeDomain κ} {log rest : List Happening} {now : Number}
    (h : DueAhead D now (log ++ rest)) : DueAhead D now log := by
  rintro past delay task more rfl
  exact h past delay task (more ++ rest) (by rw [List.append_assoc, List.cons_append])

/-- What every history keeps: the ledger of the agenda, that the action tends the agenda and executes
the task that is due, and that what waits for its end tends the agenda too. -/
structure Accounted (D : TimeDomain κ) (address : Nat) (log : List Happening) (m : Moment) : Prop where
  ledger : ∃ a, m.store.agendas[address]? = some a ∧ Ledger D log a
  tended : Tended address (due log) m.action m.store
  waiting : ∀ k ∈ m.pending, ∀ o t, Tended address none (k o) t
  executed : Executed log

variable {D : TimeDomain κ} {address : Nat} {now : Number} {log happenings : List Happening}
  {m n : Moment}

/-- A call keeps what histories keep. It may be that of the task that is due. -/
theorem Accounted.called (h : Accounted D address log m) {s : Store} (hs : s.agendas = m.store.agendas)
    {ks : Action.Pending} (hks : ∀ k ∈ ks, ∀ o t, Tended address none (k o) t) {f : Value}
    {arguments : Arguments Value}
    (hdue : ∀ task, due log = some task → f = task.callback ∧ arguments = .of task.arguments) :
    Accounted D address (log ++ [.called f arguments]) ⟨f.apply arguments, ks, s⟩ where
  ledger := by
    obtain ⟨a, ha, hledger⟩ := h.ledger
    exact ⟨a, (congrArg (·[address]?) hs).trans ha, hledger.called f arguments⟩
  tended := by
    rw [due_called]
    exact tends_apply address f arguments s
  waiting := hks
  executed := h.executed.concat fun task htask => by
    obtain ⟨rfl, rfl⟩ := hdue task htask
    rfl

/-- Every step of the machine keeps what histories keep. -/
theorem Accounted.step (h : Accounted D address log m) (hstep : m.Step address happenings n)
    (hclocked : ∃ a, m.store.agendas[address]? = some a ∧ Clocked now log a)
    (hleads : DueAhead D now (log ++ happenings)) : Accounted D address (log ++ happenings) n := by
  have htended := h.tended
  generalize hd : due log = d at htended
  cases hstep with
  | done =>
    rw [List.append_nil]
    cases htended with
    | done =>
      exact ⟨h.ledger, hd ▸ h.waiting _ List.mem_cons_self _ _,
        fun k hk => h.waiting k (List.mem_cons_of_mem _ hk), h.executed⟩
  | fail =>
    rw [List.append_nil]
    cases htended with
    | fail =>
      exact ⟨h.ledger, hd ▸ h.waiting _ List.mem_cons_self _ _,
        fun k hk => h.waiting k (List.mem_cons_of_mem _ hk), h.executed⟩
  | read =>
    rw [List.append_nil]
    cases htended with
    | read htended => exact ⟨h.ledger, hd ▸ htended, h.waiting, h.executed⟩
  | call =>
    cases htended with
    | call hk =>
      exact h.called rfl (List.forall_mem_cons.2 ⟨hk, h.waiting⟩) fun task htask => by
        rw [hd] at htask
        cases htask
    | execute hk =>
      exact h.called rfl (List.forall_mem_cons.2 ⟨hk, h.waiting⟩) fun task htask => by
        rw [hd] at htask
        cases htask
        exact ⟨rfl, rfl⟩
  | @write change k ks s _ hbecomes =>
    obtain ⟨a, ha, hledger⟩ := h.ledger
    obtain ⟨b, hb, hab⟩ := hbecomes.exists_agenda ha
    have hnext : ∃ b, (change s).agendas[address]? = some b ∧ Ledger D (log ++ happenings) b := by
      obtain ⟨c, hc, hclocked⟩ := hclocked
      obtain rfl : a = c := Option.some.inj (ha.symm.trans hc)
      refine ⟨b, hb, hledger.becomes hab fun delay task now' hscheduled hnow' => ?_⟩
      obtain rfl : clockAfter now log = now' := Option.some.inj (hclocked.shows.symm.trans hnow')
      exact hleads log delay task [] (by rw [hscheduled])
    -- What the action is known to do at this write is what happens at it.
    have hkind {others : List Happening} (hothers : s.Becomes address others (change s)) :
        (others = [] → happenings = []) ∧ due (log ++ happenings) = due (log ++ others) := by
      obtain ⟨c, hc, hac⟩ := hothers.exists_agenda ha
      obtain rfl : b = c := Option.some.inj (hb.symm.trans hc)
      exact ⟨(hab.same_kind hac).1, (hab.same_kind hac).2 log⟩
    cases htended with
    | aside hothers hk =>
      obtain rfl := (hkind hothers).1 rfl
      rw [List.append_nil] at hnext ⊢
      exact ⟨hnext, hd ▸ hk, h.waiting, h.executed⟩
    | schedule hothers hk =>
      refine ⟨hnext, ?_, h.waiting, h.executed.becomes hd hab⟩
      rw [(hkind hothers).2, due_scheduled]
      exact hk
    | take hothers hk =>
      refine ⟨hnext, ?_, h.waiting, h.executed.becomes hd hab⟩
      rw [(hkind hothers).2, due_taken]
      exact hk

/-- Every history that begins with a new agenda keeps its ledger. -/
theorem History.accounted {start : Store} {startTime maxSteps : Value}
    (h : History address start log m)
    (hagenda : start.agendas[address]? = some (.starting startTime maxSteps))
    (hclock : startTime.number? = some now) (hnow : D.Mem now) (hleads : DueAhead D now log) :
    Accounted D address log m := by
  induction h with
  | call f arguments =>
    exact {
      ledger := ⟨_, hagenda, (Ledger.starting hclock hnow).called f arguments⟩
      tended := tends_apply address f arguments start
      waiting := fun k hk => absurd hk List.not_mem_nil
      executed := executed_nil.concat fun task htask => by cases htask }
  | step hbefore hstep ih =>
    exact (ih hleads.before).step hstep (hbefore.clocked hagenda hclock) hleads
  | @again log o s t f arguments _ ht ih =>
    have haccount := ih hleads.before
    refine haccount.called ht (fun k hk => absurd hk List.not_mem_nil) fun task htask => ?_
    have htended := haccount.tended
    rw [htask] at htended
    cases o <;> cases htended

/-- The machine can always go on, and what happens in its next step is written down. -/
theorem Accounted.exists_step (h : Accounted D address log m) (hnext : m.next? = some n) :
    ∃ happenings, m.Step address happenings n := by
  obtain ⟨action, pending, store⟩ := m
  cases action
  case done =>
    cases pending <;> cases hnext
    exact ⟨_, .done⟩
  case fail =>
    cases pending <;> cases hnext
    exact ⟨_, .fail⟩
  case read =>
    cases hnext
    exact ⟨_, .read⟩
  case write =>
    cases hnext
    have htended := h.tended
    generalize due log = d at htended
    cases htended with
    | aside hc _ => exact ⟨_, .write hc⟩
    | schedule hc _ => exact ⟨_, .write hc⟩
    | take hc _ => exact ⟨_, .write hc⟩
  case call =>
    cases hnext
    exact ⟨_, .call⟩

end Keeping

section Steps

open Action

variable {address : Nat} {s t : Store} {cs : List Call}

/-- A step either finds no task, or calls the next one, with its arguments, and nothing else. -/
theorem traced_step {ran : Bool} (h : Traced (Host.step address) s cs (.ok ran) t) :
    ∃ a, s.agendas[address]? = some a ∧
      (ran = false ∧ a.pop? = none ∧ cs = [] ∧ t = s ∨
        ran = true ∧ ∃ task b inner, a.pop? = some (task, b) ∧
          cs = [.mk task.callback (.of task.arguments) inner]) := by
  unfold Host.step at h
  cases h with
  | read h =>
  cases ha : s.agendas[address]? with
  | none =>
    simp only [ha] at h
    cases h
  | some a =>
    simp only [ha] at h
    change Traced _ s cs _ t at h
    cases hpop : a.pop? with
    | none =>
      simp only [Action.bind, hpop] at h
      cases h
      exact ⟨a, rfl, .inl ⟨rfl, hpop, rfl, rfl⟩⟩
    | some found =>
      obtain ⟨task, b⟩ := found
      by_cases hlimit : a.atLimit = true
      · simp only [Action.bind, hpop, hlimit, if_true] at h
        rcases runs_bind_iff.1 h.runs with ⟨f, u, -, hfail⟩ | ⟨f, hf, -⟩
        · cases hfail
        · cases hf
      · simp only [Action.bind, hpop, hlimit, if_false, Bool.false_eq_true] at h
        -- The agenda is put back, the task is reported, and then it is called.
        cases h with
        | write h => cases h with
        | read h => cases h with
        | write h => cases h with
        | @call _ _ _ _ _ _ _ inner _ o _ hf hk =>
          cases o with
          | ok v =>
            cases hk
            exact ⟨a, rfl, .inr ⟨rfl, task, b, inner, hpop, rfl⟩⟩
          | error f => cases hk

/-- When running an agenda has returned, no task is left. -/
theorem pop?_of_traced_draining {executed : Nat} {v : Value}
    (h : Traced (Host.drainingBody address executed) s cs (.ok v) t) :
    ∃ a, t.agendas[address]? = some a ∧ a.pop? = none := by
  -- Each task that is run makes the rest of the run a call inside it, which has fewer calls.
  induction hweight : weight cs using Nat.strong_induction_on generalizing executed s cs with
  | _ _ ih =>
    rcases runs_bind_iff.1 h.runs with ⟨ran, u, hstep, -⟩ | ⟨f, hf, -⟩
    · obtain ⟨ds, hstep⟩ := hstep.exists_traced
      obtain ⟨es, rfl, hrest⟩ := h.of_bind hstep
      obtain ⟨a, ha, ⟨rfl, hnone, -, rfl⟩ | ⟨rfl, -⟩⟩ := traced_step hstep
      · cases hrest
        exact ⟨a, ha, hnone⟩
      · obtain ⟨inner, rfl, hinner⟩ := hrest.of_invoke
        refine ih _ ?_ hinner rfl
        rw [← hweight, weight_append, weight_singleton]
        omega
    · cases hf

end Steps

end AlgebraicEffects
