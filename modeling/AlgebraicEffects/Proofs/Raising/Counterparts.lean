import AlgebraicEffects.Proofs.Limits.Disregarding
import AlgebraicEffects.Proofs.Raising.Persisting

/-!
A callback that raises costs only itself.

The same agenda is looked at twice: once with callbacks that may raise, and once with counterparts of
them that do the same and return (`Mimics`). What is executed is the same on both sides
(`Mimics.persists`), if the first agenda is run again after each failure. Main statement: a failure leaves
the agenda as it is between two steps, and what runs execute that are begun again after each failure is
what one run executes in which nothing fails (`raising_costs_itself`).
-/

set_option autoImplicit false

namespace AlgebraicEffects

open Action (Runs)

variable {address : Nat} {K : Callback → Callback → Prop} {R : Store → Store → Prop}

/-- The agendas at the address resemble each other. -/
def Store.Resembles (address : Nat) (K : Callback → Callback → Prop) (s s' : Store) : Prop :=
  ∃ a a', s.agendas[address]? = some a ∧ s'.agendas[address]? = some a' ∧ a.Resembles K a'

/-- Like tasks have been executed while the agendas resembled each other, and the second has returned. -/
structure Execution.Like (K : Callback → Callback → Prop) (e e' : Execution) : Prop where
  task : e.task.Like K e'.task
  agenda : e.agenda.Resembles K e'.agenda
  returns : ∃ v, e'.ending = .ok v

/-- Callbacks and their counterparts do the same, where this is known of the stores between two tasks.
The call of the next task ends on both sides or on neither, takes no tasks and schedules like ones, and
then this is known again. The counterpart returns, whichever way the other one ends. -/
structure Mimics (address : Nat) (K : Callback → Callback → Prop) (R : Store → Store → Prop) :
    Prop where
  ends {s s' : Store} : R s s' → s.Resembles address K s' →
    ((∃ e t, TakesNext address s e t) ↔ ∃ e' t', TakesNext address s' e' t')
  same {s s' t t' : Store} {e e' : Execution} : R s s' → s.Resembles address K s' →
    TakesNext address s e t → TakesNext address s' e' t' →
    (∃ v, e'.ending = .ok v) ∧ R t t' ∧
      ∃ b b' tasks tasks', t.agendas[address]? = some b ∧ t'.agendas[address]? = some b' ∧
        e.agenda.Gains tasks b ∧ e'.agenda.Gains tasks' b' ∧ tasks.Forall₂ (Task.Like K) tasks'

section Resembling

variable {s s' : Store}

theorem Store.Resembles.free (h : s.Resembles address K s') : s.Free address ∧ s'.Free address := by
  obtain ⟨a, a', ha, ha', hresembles⟩ := h
  exact ⟨⟨a, ha, hresembles.unlimited⟩, ⟨a', ha', hresembles.unlimited'⟩⟩

/-- A task is pending on both sides or on neither. -/
theorem Store.Resembles.pending_iff (h : s.Resembles address K s') :
    s.Pending address ↔ s'.Pending address := by
  obtain ⟨a, a', ha, ha', hresembles⟩ := h
  have hpending {t : Store} {b : Agenda} (hb : t.agendas[address]? = some b) :
      t.Pending address ↔ b.pop?.isSome := by
    refine ⟨?_, fun hsome => ⟨b, hb, hsome⟩⟩
    rintro ⟨c, hc, hsome⟩
    obtain rfl : b = c := Option.some.inj (hb.symm.trans hc)
    exact hsome
  rw [hpending ha, hpending ha']
  have hpop := hresembles.pop
  generalize a.pop? = next at hpop
  generalize a'.pop? = next' at hpop
  cases hpop <;> exact .rfl

end Resembling

section Returning

variable {s u : Store} {es : List Execution}

/-- Tasks that all return have been executed by one run, which tells how many they are. -/
theorem Persists.runs_drain (h : Persists address s es u) (hfree : s.Free address)
    (hreturns : ∀ e ∈ es, ∃ v, e.ending = .ok v) (hu : ¬u.Pending address) :
    Runs Value.apply (Host.drain address) s (.ok (.int es.length)) u := by
  obtain ⟨a, ha, hpop⟩ := (h.free hfree).exists_pop_none hu
  obtain ⟨ts, hlength, hexecutes⟩ :
      ∃ ts, ts.length = es.length ∧ Executes address s ts (.ok ()) u := by
    clear hfree hu
    induction h with
    | nothing s => exact ⟨[], rfl, .nothing s⟩
    | goesOn hnext _ ih =>
      obtain ⟨ts, hlength, hexecutes⟩ := ih (fun e he => hreturns e (List.mem_cons_of_mem _ he)) ha
      obtain ⟨v, hv⟩ := hreturns _ List.mem_cons_self
      cases hnext with
      | ends hb htask hlimit hcall =>
        obtain rfl := hv
        obtain ⟨cs, hcall⟩ := hcall.exists_traced
        exact ⟨_ :: ts, congrArg (· + 1) hlength, .goesOn hb htask hlimit hcall hexecutes⟩
  refine hexecutes.runs_drain 0 (fun _ => ?_) ?_
  · rw [Nat.zero_add, hlength]
    exact runs_drain_of_pop_none ha hpop es.length
  · rintro f ⟨⟩

end Returning

section Mimicking

variable {s s' t t' u u' : Store} {e e' : Execution} {es es' : List Execution}

/-- The next tasks are executed alike, and leave agendas that resemble each other. -/
theorem Mimics.matched (h : Mimics address K R) (hR : R s s') (hs : s.Resembles address K s')
    (hnext : TakesNext address s e t) (hnext' : TakesNext address s' e' t') :
    e.Like K e' ∧ R t t' ∧ t.Resembles address K t' := by
  obtain ⟨hreturns, hafter, b, b', tasks, tasks', hb, hb', hgains, hgains', htasks⟩ :=
    h.same hR hs hnext hnext'
  obtain ⟨a, a', ha, ha', hresembles⟩ := hs
  have hpop := hresembles.pop
  cases hnext with
  | ends hc htask =>
    obtain rfl := Option.some.inj (ha.symm.trans hc)
    cases hnext' with
    | ends hc' htask' =>
      obtain rfl := Option.some.inj (ha'.symm.trans hc')
      rw [htask, htask'] at hpop
      cases hpop with
      | some hlike =>
        exact ⟨⟨hlike.1, hlike.2, hreturns⟩, hafter, b, b', hb, hb',
          hlike.2.gains htasks hgains hgains'⟩

/-- What the one side has executed the other side executes. -/
theorem Mimics.persists (h : Mimics address K R) (hrun : Persists address s es u) (hR : R s s')
    (hs : s.Resembles address K s') :
    ∃ es' u', Persists address s' es' u' ∧ es.Forall₂ (Execution.Like K) es' ∧
      u.Resembles address K u' := by
  induction hrun generalizing s' with
  | nothing s => exact ⟨[], s', .nothing s', .nil, hs⟩
  | goesOn hnext _ ih =>
    obtain ⟨e', t', hnext'⟩ := (h.ends hR hs).1 ⟨_, _, hnext⟩
    obtain ⟨hlike, hafter, ht⟩ := h.matched hR hs hnext hnext'
    obtain ⟨es', u', hrest, hlikes, hu⟩ := ih hafter ht
    exact ⟨e' :: es', u', .goesOn hnext' hrest, .cons hlike hlikes, hu⟩

/-- What the other side has executed this side executes. -/
theorem Mimics.persists_back (h : Mimics address K R) (hrun : Persists address s' es' u') (hR : R s s')
    (hs : s.Resembles address K s') :
    ∃ es u, Persists address s es u ∧ es.Forall₂ (Execution.Like K) es' ∧ u.Resembles address K u' := by
  induction hrun generalizing s with
  | nothing s' => exact ⟨[], s, .nothing s, .nil, hs⟩
  | goesOn hnext' _ ih =>
    obtain ⟨e, t, hnext⟩ := (h.ends hR hs).2 ⟨_, _, hnext'⟩
    obtain ⟨hlike, hafter, ht⟩ := h.matched hR hs hnext hnext'
    obtain ⟨es, u, hrest, hlikes, hu⟩ := ih hafter ht
    exact ⟨e :: es, u, .goesOn hnext hrest, .cons hlike hlikes, hu⟩

/-- Nothing fails on the other side. -/
theorem returns_of_like (h : es.Forall₂ (Execution.Like K) es') : ∀ e ∈ es', ∃ v, e.ending = .ok v := by
  induction h with
  | nil => exact fun e he => absurd he List.not_mem_nil
  | cons hlike _ ih =>
    intro e he
    rcases List.mem_cons.1 he with rfl | he
    · exact hlike.returns
    · exact ih e he

theorem failures_of_like (h : es.Forall₂ (Execution.Like K) es') : failures es' = [] := by
  refine List.flatMap_eq_nil_iff.2 fun e he => ?_
  obtain ⟨v, hv⟩ := returns_of_like h e he
  rw [hv]
  rfl

end Mimicking

/-- A callback that raises costs only itself. On an agenda without a limit, its failure ends the step
and the run as it is, and if it took no tasks then its task alone is gone, and what it has scheduled is
pending beside what was. To run the agenda again after each failure until a run returns is to execute
its tasks one after the other, whichever way they end. And where the callbacks have counterparts that do
the same and return, what has been executed is at every time the same, at the same times and with the
same counts, and the runs that are begun again come to an end if and where the one run does that has no
failures. -/
theorem raising_costs_itself {s : Store} (hfree : s.Free address) :
    (∀ e f t, TakesNext address s e t → e.ending = .error f → t.tally address = e.agenda.steps →
      Runs Value.apply (Host.step address) s (.error f) t ∧
      (∀ start ts, Executes address start ts (.ok ()) s →
        Runs Value.apply (Host.drain address) start (.error f) t) ∧
      ∃ a b tasks, s.agendas[address]? = some a ∧ t.agendas[address]? = some b ∧
        a.Spends e.task tasks b) ∧
    (∀ fs u, RunsAgain address s fs u ↔
      ∃ es, Persists address s es u ∧ ¬u.Pending address ∧ failures es = fs) ∧
    ∀ K R s', Mimics address K R → R s s' → s.Resembles address K s' →
      (∀ es u, Persists address s es u → ∃ es' u', Persists address s' es' u' ∧
        es.Forall₂ (Execution.Like K) es' ∧ u.Resembles address K u') ∧
      (∀ es' u', Persists address s' es' u' → ∃ es u, Persists address s es u ∧
        es.Forall₂ (Execution.Like K) es' ∧ u.Resembles address K u') ∧
      (∀ fs u, RunsAgain address s fs u → ∃ es es' u', Persists address s es u ∧ failures es = fs ∧
        Persists address s' es' u' ∧ es.Forall₂ (Execution.Like K) es' ∧ u.Resembles address K u' ∧
        Runs Value.apply (Host.drain address) s' (.ok (.int es'.length)) u') ∧
      ∀ r u', Runs Value.apply (Host.drain address) s' r u' → ∃ fs u, RunsAgain address s fs u := by
  refine ⟨fun e f t hnext hf hcount => ?_, fun fs u => runsAgain_iff hfree,
    fun K R s' h hR hs => ⟨fun es u hrun => h.persists hrun hR hs,
      fun es' u' hrun => h.persists_back hrun hR hs, fun fs u hruns => ?_, fun r u' hrun => ?_⟩⟩
  · have hstep := hnext.runs_step
    rw [hf] at hstep
    exact ⟨hstep, fun start ts hrun => hnext.runs_drain hf hrun, hnext.spends hcount⟩
  · obtain ⟨es, hpersists, hpending, hfailures⟩ := hruns.exists_persists hfree
    obtain ⟨es', u', hpersists', hlikes, hu⟩ := h.persists hpersists hR hs
    refine ⟨es, es', u', hpersists, hfailures, hpersists', hlikes, hu, ?_⟩
    exact hpersists'.runs_drain hs.free.2 (returns_of_like hlikes) fun hpending' =>
      hpending (hu.pending_iff.2 hpending')
  · obtain ⟨es', hpersists', hfailures', hpending'⟩ := exists_persists hs.free.2 hrun
    obtain ⟨es, u, hpersists, hlikes, hu⟩ := h.persists_back hpersists' hR hs
    rw [failures_of_like hlikes] at hfailures'
    cases r with
    | error f => cases hfailures'
    | ok v =>
      exact ⟨_, u, hpersists.runsAgain hfree fun hpending =>
        hpending' ⟨v, rfl⟩ (hu.pending_iff.1 hpending)⟩

section Instances

/-- Gives a callback to the agenda, for some time later. -/
def registering : Value := .function 0 (.boundTo (.function 0 (.method .callLater)) (.agenda 0))

def idling : Value := .function 0 (.closure "idle" ⟨[], none⟩ (.literal .nothing) [])

/-- Has the agenda call something later, and ends as the expression says. -/
def announcing (last : Expr) : Value :=
  .function 0 (.closure "announce" ⟨[], none⟩
    (.block [.form (.primitive .call) [.variable "register", .variable "delay", .variable "idle"] [], last])
    [("register", registering), ("delay", .int 1), ("idle", idling)])

def raising : Value := announcing (.raise (.literal (.text "ValueError")) (.literal (.text "no")))

def returning : Value := announcing (.literal .nothing)

/-- The agenda while its first task is called. -/
def busy : Agenda := { Agenda.starting (.int 0) .nothing with sequenceCounter := 1, steps := 1 }

/-- The agenda while the task is called that the first one has scheduled. -/
def spent : Agenda :=
  { Agenda.starting (.int 0) .nothing with sequenceCounter := 2, steps := 2, currentTime := .int 1 }

/-- The callback is to be called. -/
def announcingAt (callback : Value) : Store :=
  { Store.empty with
    agendas := #[(Agenda.starting (.int 0) .nothing).schedule (.int 0) 0 callback []] }

/-- The callback has been called. -/
def announced (callback : Value) : Store :=
  ((announcingAt callback).taking 0 ⟨.int 0, 0, 0, callback, []⟩ busy).scheduling 0 busy (.int (0 + 1))
    idling []

/-- What it has scheduled has been called, too. -/
def idled (callback : Value) : Store :=
  (announced callback).taking 0 ⟨.int (0 + 1), 0, 1, idling, []⟩ spent

theorem runs_registering {s : Store} {a : Agenda} {m : Int} (ha : s.agendas[0]? = some a)
    (hclock : a.currentTime = .int m) :
    Runs Value.apply (Action.ask registering [.int 1, idling]) s (.ok .nothing)
      (s.scheduling 0 a (.int (m + 1)) idling []) := by
  have hnow : a.currentTime.number? = some (.int m) := by rw [hclock]; rfl
  have hscheduled := traced_scheduling (show (Value.int 1).number? = some (.int 1) from rfl) rfl ha hnow
    rfl idling []
  exact .invoke (.invoke ((traced_checkDelay rfl rfl s).bind hscheduled).runs)

theorem takesNext_announcingAt {last : Expr} {o : Ending}
    (hlast : ∀ scope t, Runs Value.apply (last.eval scope) t o t) :
    TakesNext 0 (announcingAt (announcing last))
      ⟨⟨.int 0, 0, 0, announcing last, []⟩, busy, o⟩ (announced (announcing last)) := by
  have hpop := Agenda.pop?_schedule_of_empty (a := .starting (.int 0) .nothing) rfl (.int 0) 0
    (announcing last) []
  have hregistered : Runs Value.apply ((Action.ask registering [.int 1, idling]).bind Action.identify)
      ((announcingAt (announcing last)).taking 0 ⟨.int 0, 0, 0, announcing last, []⟩ busy)
      (.ok .nothing) (announced (announcing last)) :=
    (runs_registering (Store.getElem?_taking rfl) rfl).bind (.done _ _)
  exact .ends rfl hpop rfl (.invoke (hregistered.bind (k := fun _ => last.eval _) (hlast _ _)))

theorem takesNext_raising : TakesNext 0 (announcingAt raising)
    ⟨⟨.int 0, 0, 0, raising, []⟩, busy, .error (.raised .badValue (.text "no"))⟩ (announced raising) :=
  takesNext_announcingAt fun _ _ => .fail _ _

theorem takesNext_returning : TakesNext 0 (announcingAt returning)
    ⟨⟨.int 0, 0, 0, returning, []⟩, busy, .ok .nothing⟩ (announced returning) :=
  takesNext_announcingAt fun _ _ => .done _ _

theorem takesNext_announced (callback : Value) : TakesNext 0 (announced callback)
    ⟨⟨.int (0 + 1), 0, 1, idling, []⟩, spent, .ok .nothing⟩ (idled callback) := by
  have hpop := Agenda.pop?_schedule_of_empty (a := busy) rfl (.int (0 + 1)) 0 idling []
  exact .ends rfl hpop rfl (.invoke (.done _ _))

theorem not_pending_idled (callback : Value) : ¬(idled callback).Pending 0 := by
  rintro ⟨a, ha, hpending⟩
  obtain rfl : spent = a := Option.some.inj ha
  have hpop : spent.pop? = none := by
    unfold Agenda.pop?
    rw [show spent.queue = .empty from rfl, Heap.pop?_empty]
  rw [hpop] at hpending
  cases hpending

/-- The callbacks are the same, or one raises and the other returns instead. -/
def Replaced (c c' : Callback) : Prop := c' = c ∨ c = (raising, []) ∧ c' = (returning, [])

/-- As many tasks have been executed on both sides. -/
def Abreast (s s' : Store) : Prop :=
  ∃ stage ∈ [announcingAt, announced, idled], s = stage raising ∧ s' = stage returning

theorem mimics_returning : Mimics 0 Replaced Abreast where
  ends := by
    rintro s s' ⟨stage, hstage, rfl, rfl⟩ -
    simp only [List.mem_cons, List.not_mem_nil, or_false] at hstage
    rcases hstage with rfl | rfl | rfl
    · exact ⟨fun _ => ⟨_, _, takesNext_returning⟩, fun _ => ⟨_, _, takesNext_raising⟩⟩
    · exact ⟨fun _ => ⟨_, _, takesNext_announced _⟩, fun _ => ⟨_, _, takesNext_announced _⟩⟩
    · constructor
      · rintro ⟨e, t, hnext⟩
        exact absurd hnext.pending (not_pending_idled _)
      · rintro ⟨e, t, hnext⟩
        exact absurd hnext.pending (not_pending_idled _)
  same := by
    rintro s s' t t' e e' ⟨stage, hstage, rfl, rfl⟩ - hnext hnext'
    simp only [List.mem_cons, List.not_mem_nil, or_false] at hstage
    rcases hstage with rfl | rfl | rfl
    · obtain ⟨rfl, rfl⟩ := takesNext_raising.unique hnext
      obtain ⟨rfl, rfl⟩ := takesNext_returning.unique hnext'
      refine ⟨⟨_, rfl⟩, ⟨announced, by simp, rfl, rfl⟩, _, _, [⟨.int (0 + 1), 0, 1, idling, []⟩],
        [⟨.int (0 + 1), 0, 1, idling, []⟩], rfl, rfl, ?_, ?_, .cons ⟨rfl, rfl, .inl rfl⟩ .nil⟩
      · exact .scheduled rfl (.nothing _)
      · exact .scheduled rfl (.nothing _)
    · obtain ⟨rfl, rfl⟩ := (takesNext_announced raising).unique hnext
      obtain ⟨rfl, rfl⟩ := (takesNext_announced returning).unique hnext'
      exact ⟨⟨_, rfl⟩, ⟨idled, by simp, rfl, rfl⟩, spent, spent, [], [], rfl, rfl, .nothing _, .nothing _,
        .nil⟩
    · exact absurd hnext.pending (not_pending_idled _)

theorem resembles_announcingAt :
    (announcingAt raising).Resembles 0 Replaced (announcingAt returning) := by
  have hstart : (Agenda.starting (.int 0) .nothing).Resembles Replaced (.starting (.int 0) .nothing) :=
    ⟨⟨.empty, rfl⟩, rfl, rfl, .inl rfl, rfl, rfl⟩
  have htask : Task.Like Replaced ⟨.int 0, 0, 0, raising, []⟩ ⟨.int 0, 0, 0, returning, []⟩ :=
    ⟨rfl, rfl, .inr ⟨rfl, rfl⟩⟩
  exact ⟨_, _, rfl, rfl, hstart.schedule htask⟩

theorem raising_costs_itself_announcing :
    (announcingAt raising).Free 0 ∧ Mimics 0 Replaced Abreast ∧
      Runs Value.apply (Host.step 0) (announcingAt raising)
        (.error (.raised .badValue (.text "no"))) (announced raising) ∧
      Runs Value.apply (Host.drain 0) (announcingAt raising)
        (.error (.raised .badValue (.text "no"))) (announced raising) ∧
      (∃ a b tasks, (announcingAt raising).agendas[0]? = some a ∧
        (announced raising).agendas[0]? = some b ∧ a.Spends ⟨.int 0, 0, 0, raising, []⟩ tasks b) ∧
      RunsAgain 0 (announcingAt raising) [.raised .badValue (.text "no")] (idled raising) ∧
      ∃ es es' u', Persists 0 (announcingAt raising) es (idled raising) ∧
        failures es = [.raised .badValue (.text "no")] ∧ Persists 0 (announcingAt returning) es' u' ∧
        es.Forall₂ (Execution.Like Replaced) es' ∧ (idled raising).Resembles 0 Replaced u' ∧
        Runs Value.apply (Host.drain 0) (announcingAt returning) (.ok (.int es'.length)) u' := by
  obtain ⟨hfree, -⟩ := resembles_announcingAt.free
  obtain ⟨hcosts, hagain, htwo⟩ := raising_costs_itself hfree
  obtain ⟨hstep, hrun, hspends⟩ := hcosts _ _ _ takesNext_raising rfl rfl
  have hpersists : Persists 0 (announcingAt raising) _ (idled raising) :=
    .goesOn takesNext_raising (.goesOn (takesNext_announced raising) (.nothing _))
  have hruns := (hagain [.raised .badValue (.text "no")] (idled raising)).2
    ⟨_, hpersists, not_pending_idled _, rfl⟩
  obtain ⟨-, -, hsame, -⟩ := htwo Replaced Abreast _ mimics_returning
    ⟨announcingAt, List.mem_cons_self, rfl, rfl⟩ resembles_announcingAt
  exact ⟨hfree, mimics_returning, hstep, hrun _ [] (.nothing _), hspends, hruns, hsame _ _ hruns⟩

end Instances

end AlgebraicEffects
