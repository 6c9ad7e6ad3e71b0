import AlgebraicEffects.Host.Agenda
import AlgebraicEffects.Proofs.Queue.Heap
import Mathlib.Data.Prod.Lex

/-!
An agenda is a stable event queue.

What happens to an agenda is written down as it happens: tasks are scheduled, and tasks are taken. The
log alone says which tasks are pending (`pending`), and a stable event queue takes the pending task that
is least by its due time and, among tasks that are due together, by its number (`StableQueue`). Agendas
keep to this if the times are linearly ordered, and if waiting from one of them does not lead back
before it (`TimeDomain`). Main statement: scheduling and taking keep a ledger, from which the agenda is
read as a stable event queue (`Ledger.becomes`).
-/

set_option autoImplicit false

namespace AlgebraicEffects

/-- Times with a linear order, on which the comparisons of numbers are exact, and delays. A delay that
is not less than zero leads from a time to one that is not before it. -/
structure TimeDomain (κ : Type) [LinearOrder κ] where
  Mem : Number → Prop
  Delay : Number → Prop
  rank : Number → κ
  less {a b : Number} : Mem a → Mem b → (a.less b = true ↔ rank a < rank b)
  equal {a b : Number} : Mem a → Mem b → (a.equal b = true ↔ rank a = rank b)
  add {now delay due : Number} : Mem now → Delay delay → delay.less (.int 0) = false →
    now.add delay = .ok due → Mem due ∧ rank now ≤ rank due

/-- A number is added to a double as its nearest double. -/
theorem Number.float_add {n : Number} {y : Float} (h : n.toFloat = .ok y) (x : Float) :
    (Number.float x).add n = .ok (.float (x + y)) := by
  have hcombined : (Number.float x).add n = n.toFloat >>= fun y => .ok (.float (x + y)) := by
    cases n <;> rfl
  rw [hcombined, h]
  rfl

/-- The integers are times, and delays between them. -/
def TimeDomain.integers : TimeDomain ℤ where
  Mem x := ∃ n, x = .int n
  Delay x := ∃ n, x = .int n
  rank x := x.scaled?.elim 0 Scaled.mantissa
  less := by
    rintro _ _ ⟨m, rfl⟩ ⟨n, rfl⟩
    rw [Number.less_int, decide_eq_true_iff]
    exact Iff.rfl
  equal := by
    rintro _ _ ⟨m, rfl⟩ ⟨n, rfl⟩
    rw [Number.equal_int, decide_eq_true_iff]
    exact Iff.rfl
  add := by
    rintro _ _ due ⟨m, rfl⟩ ⟨n, rfl⟩ hpositive hdue
    rw [Number.less_int, decide_eq_false_iff_not] at hpositive
    cases hdue
    exact ⟨⟨m + n, rfl⟩, by show m ≤ m + n; omega⟩

/-- What happens to an agenda, and what is called meanwhile. -/
inductive Happening where
  | scheduled (delay : Number) (task : Task)
  | taken (task : Task)
  | called (f : Value) (arguments : Arguments Value)

/-- The tasks that have been scheduled, in this order. -/
def scheduledTasks (log : List Happening) : List Task :=
  log.filterMap fun
    | .scheduled _ task => some task
    | _ => none

/-- The tasks that have been taken, in this order. -/
def takenTasks (log : List Happening) : List Task :=
  log.filterMap fun
    | .taken task => some task
    | _ => none

/-- The delays with which tasks have been scheduled. -/
def delays (log : List Happening) : List Number :=
  log.filterMap fun
    | .scheduled delay _ => some delay
    | _ => none

/-- The pending tasks after one more thing has happened. -/
def Happening.leaves (tasks : List Task) : Happening → List Task
  | .scheduled _ task => tasks ++ [task]
  | .taken task => tasks.filter (·.sequence != task.sequence)
  | .called _ _ => tasks

/-- The tasks that have been scheduled and not been taken yet, in the order of their numbers. -/
def pending (log : List Happening) : List Task := log.foldl Happening.leaves []

section Logs

variable (log rest : List Happening) (delay : Number) (task : Task) (f : Value)
  (arguments : Arguments Value)

@[simp] theorem scheduledTasks_append :
    scheduledTasks (log ++ rest) = scheduledTasks log ++ scheduledTasks rest :=
  List.filterMap_append

@[simp] theorem takenTasks_append :
    takenTasks (log ++ rest) = takenTasks log ++ takenTasks rest :=
  List.filterMap_append

@[simp] theorem pending_concat (h : Happening) : pending (log ++ [h]) = h.leaves (pending log) := by
  rw [pending, List.foldl_append]
  rfl

end Logs

section Domains

variable {κ : Type} [LinearOrder κ] (D : TimeDomain κ)

/-- What orders tasks: the due time, and the number among tasks that are due together. -/
def TimeDomain.key (t : Task) : κ ×ₗ ℕ := toLex (D.rank t.time, t.sequence)

theorem TimeDomain.key_lt_iff (t u : Task) :
    D.key t < D.key u ↔
      D.rank t.time < D.rank u.time ∨ D.rank t.time = D.rank u.time ∧ t.sequence < u.sequence :=
  Prod.Lex.toLex_lt_toLex

theorem TimeDomain.rank_le_of_key_le {t u : Task} (h : D.key t ≤ D.key u) :
    D.rank t.time ≤ D.rank u.time := by
  rcases Prod.Lex.toLex_le_toLex.1 h with hlt | ⟨heq, -⟩
  · exact le_of_lt hlt
  · exact le_of_eq heq

theorem TimeDomain.sequence_eq_of_key_eq {t u : Task} (h : D.key t = D.key u) :
    t.sequence = u.sequence := congrArg (fun k => (ofLex k).2) h

/-- Tasks come before each other as the key says. -/
theorem goesBy_before : GoesBy Task.before D.key fun t => D.Mem t.time := by
  intro t u ht hu
  rw [D.key_lt_iff]
  unfold Task.before
  by_cases hequal : t.time.equal u.time = true
  · have hrank := (D.equal ht hu).1 hequal
    rw [if_pos hequal, decide_eq_true_iff]
    constructor
    · exact fun hlt => .inr ⟨hrank, hlt⟩
    · rintro (hlt | ⟨-, hlt⟩)
      · exact absurd hrank (ne_of_lt hlt)
      · exact hlt
  · have hrank : D.rank t.time ≠ D.rank u.time := fun h => hequal ((D.equal ht hu).2 h)
    rw [if_neg hequal, D.less ht hu]
    constructor
    · exact .inl
    · rintro (hlt | ⟨heq, -⟩)
      · exact hlt
      · exact absurd heq hrank

end Domains

/-- The agenda from which a task is taken has it at the front of its queue. -/
theorem Agenda.exists_of_pop {a b : Agenda} {task : Task} (h : a.pop? = some (task, b)) :
    ∃ queue, a.queue.pop? Task.before = some (task, queue) ∧
      b = { a with queue := queue, currentTime := task.dueTime, steps := a.steps + 1 } := by
  cases hqueue : a.queue.pop? Task.before with
  | none => simp [Agenda.pop?, hqueue] at h
  | some found =>
    obtain ⟨t, queue⟩ := found
    simp only [Agenda.pop?, hqueue, Option.some.injEq, Prod.mk.injEq] at h
    obtain ⟨rfl, rfl⟩ := h
    exact ⟨queue, rfl, rfl⟩

/-- The only task of an agenda is the next one. -/
theorem Agenda.pop?_schedule_of_empty {a : Agenda} (h : a.queue = .empty) (time : Number) (timeTag : Nat)
    (callback : Value) (arguments : List Value) : (a.schedule time timeTag callback arguments).pop? =
      some (⟨time, timeTag, a.sequenceCounter, callback, arguments⟩,
        { a with
          queue := .empty, sequenceCounter := a.sequenceCounter + 1, steps := a.steps + 1
          currentTime := .ofNumber timeTag time }) := by
  unfold Agenda.schedule Agenda.pop?
  rw [h]
  simp only [Heap.pop?_push_empty]
  rfl

/-- What an agenda becomes when something happens to it: a task is scheduled some time from now, or
the next task is taken. -/
inductive Agenda.Becomes (a : Agenda) : List Happening → Agenda → Prop where
  | same : Becomes a [] a
  | scheduled {now delay time : Number} {timeTag : Nat} {callback : Value}
      {arguments : List Value} :
      a.currentTime.number? = some now → delay.less (.int 0) = false → now.add delay = .ok time →
      Becomes a [.scheduled delay ⟨time, timeTag, a.sequenceCounter, callback, arguments⟩]
        (a.schedule time timeTag callback arguments)
  | taken {task : Task} {next : Agenda} :
      a.pop? = some (task, next) → Becomes a [.taken task] next

variable {κ : Type} [LinearOrder κ]

/-- The log of an agenda that is a stable event queue. Its tasks are numbered as they are scheduled;
the agenda holds those that are pending, and none is lost; and each task that was taken was the least
of those pending, so tasks are taken in the order of their keys. -/
structure StableQueue (D : TimeDomain κ) (log : List Happening) (a : Agenda) : Prop where
  numbered : (scheduledTasks log).map (·.sequence) = List.range (scheduledTasks log).length
  holds : a.queue.toList.Perm (pending log)
  complete : (scheduledTasks log).Perm (takenTasks log ++ pending log)
  least : ∀ past task rest, log = past ++ .taken task :: rest →
    task ∈ pending past ∧ ∀ other ∈ pending past, D.key task ≤ D.key other
  sorted : (takenTasks log).Pairwise fun t u => D.key t < D.key u

/-- What is kept of an agenda besides: its heap is in order, the next number is that of the next task,
and its clock shows a time that is neither after that of a pending task nor before that of a task that
was taken. -/
structure Ledger (D : TimeDomain κ) (log : List Happening) (a : Agenda) : Prop
    extends StableQueue D log a where
  sound : a.queue.Sound D.key
  counter : a.sequenceCounter = (scheduledTasks log).length
  members : ∀ t ∈ pending log, D.Mem t.time
  clock : ∃ now, a.currentTime.number? = some now ∧ D.Mem now ∧
    (∀ t ∈ pending log, D.rank now ≤ D.rank t.time) ∧
    ∀ t ∈ takenTasks log, D.rank t.time ≤ D.rank now
  behind : ∀ t ∈ takenTasks log, ∀ u ∈ pending log, D.key t < D.key u

namespace Ledger

variable {D : TimeDomain κ} {log : List Happening} {a b : Agenda}

theorem starting {startTime maxSteps : Value} {now : Number}
    (hclock : startTime.number? = some now) (hnow : D.Mem now) :
    Ledger D [] (Agenda.starting startTime maxSteps) where
  numbered := rfl
  holds := .nil
  complete := .nil
  least past task rest h := by
    cases past <;> cases h
  sorted := .nil
  sound := Heap.sound_empty
  counter := rfl
  members t ht := absurd ht List.not_mem_nil
  clock := ⟨now, hclock, hnow, fun t ht => absurd ht List.not_mem_nil,
    fun t ht => absurd ht List.not_mem_nil⟩
  behind t ht := absurd ht List.not_mem_nil

/-- The number of a task is less than that of the next one to be scheduled. -/
theorem sequence_lt (h : Ledger D log a) {t : Task} (ht : t ∈ scheduledTasks log) :
    t.sequence < a.sequenceCounter := by
  have hmem : t.sequence ∈ (scheduledTasks log).map (·.sequence) := List.mem_map_of_mem ht
  rw [h.numbered, List.mem_range] at hmem
  rw [h.counter]
  exact hmem

theorem nodup_pending (h : Ledger D log a) : ((pending log).map (·.sequence)).Nodup := by
  have hperm := h.complete.map (·.sequence)
  rw [h.numbered, List.map_append] at hperm
  exact (List.nodup_append.1 (hperm.nodup_iff.1 List.nodup_range)).2.1

/-- The tasks that were taken or are pending are those that were scheduled. -/
theorem mem_scheduled (h : Ledger D log a) {t : Task}
    (ht : t ∈ takenTasks log ∨ t ∈ pending log) : t ∈ scheduledTasks log :=
  h.complete.mem_iff.2 (List.mem_append.2 ht)

/-- A log that is extended by something else than taking a task says the same of taken tasks. -/
theorem least_concat {P : List Happening → Task → Prop} {last : Happening}
    (h : ∀ past task rest, log = past ++ .taken task :: rest → P past task)
    (hlast : ∀ task, last = .taken task → P log task) (past : List Happening) (task : Task)
    (rest : List Happening) (hsplit : log ++ [last] = past ++ .taken task :: rest) : P past task := by
  rcases List.eq_nil_or_concat rest with rfl | ⟨rest, final, rfl⟩
  · obtain ⟨rfl, hlog⟩ := List.append_inj' hsplit rfl
    exact hlast task (List.cons.inj hlog).1
  · rw [List.concat_eq_append, ← List.cons_append, ← List.append_assoc] at hsplit
    exact h past task rest (List.append_inj' hsplit rfl).1

/-- Scheduling a task keeps the ledger, if it is due at a time that is not before now. -/
theorem scheduled_ahead (h : Ledger D log a) {now time : Number} (delay : Number) (timeTag : Nat)
    (callback : Value) (arguments : List Value) (hnow : a.currentTime.number? = some now)
    (htimeMem : D.Mem time) (hle : D.rank now ≤ D.rank time) :
    Ledger D (log ++ [.scheduled delay ⟨time, timeTag, a.sequenceCounter, callback, arguments⟩])
      (a.schedule time timeTag callback arguments) := by
  obtain ⟨now', hnow', hmem, hlater, hbefore⟩ := h.clock
  obtain rfl : now = now' := Option.some.inj (hnow.symm.trans hnow')
  generalize htask : Task.mk time timeTag a.sequenceCounter callback arguments = task
  have hsequence : task.sequence = (scheduledTasks log).length := by rw [← htask]; exact h.counter
  have htaskTime : task.time = time := by rw [← htask]
  have hscheduled : scheduledTasks (log ++ [.scheduled delay task]) = scheduledTasks log ++ [task] :=
    scheduledTasks_append log _
  have htaken : takenTasks (log ++ [.scheduled delay task]) = takenTasks log := by
    rw [takenTasks_append]
    exact List.append_nil _
  have hpending : pending (log ++ [.scheduled delay task]) = pending log ++ [task] :=
    pending_concat log _
  have hmembers : ∀ t ∈ a.queue.toList, D.Mem t.time := fun t ht =>
    h.members t (h.holds.mem_iff.1 ht)
  have hqueue : (a.schedule time timeTag callback arguments).queue =
      a.queue.push Task.before task := by rw [← htask]; rfl
  refine {
    numbered := ?_, holds := ?_, complete := ?_, least := ?_, sorted := ?_, sound := ?_,
    counter := ?_, members := ?_, clock := ⟨now, hnow, hmem, ?_, ?_⟩, behind := ?_ }
  · rw [hscheduled, List.map_append, h.numbered, List.length_append, List.length_singleton,
      List.range_succ, List.map_singleton, hsequence]
  · rw [hqueue, hpending]
    exact (Heap.toList_push _ _ _).trans
      ((h.holds.cons task).trans (List.perm_append_singleton task _).symm)
  · rw [hscheduled, htaken, hpending, ← List.append_assoc]
    exact h.complete.append_right [task]
  · exact least_concat h.least fun task htask => by cases htask
  · rw [htaken]
    exact h.sorted
  · rw [hqueue]
    exact h.sound.push (goesBy_before D) (htaskTime ▸ htimeMem) hmembers
  · rw [hscheduled, List.length_append, List.length_singleton, ← h.counter]
    rfl
  · intro t ht
    rw [hpending, List.mem_append, List.mem_singleton] at ht
    rcases ht with ht | rfl
    · exact h.members t ht
    · exact htaskTime ▸ htimeMem
  · intro t ht
    rw [hpending, List.mem_append, List.mem_singleton] at ht
    rcases ht with ht | rfl
    · exact hlater t ht
    · rw [htaskTime]
      exact hle
  · rw [htaken]
    exact hbefore
  · intro t ht u hu
    rw [htaken] at ht
    rw [hpending, List.mem_append, List.mem_singleton] at hu
    rcases hu with hu | rfl
    · exact h.behind t ht u hu
    · have hlt := h.sequence_lt (h.mem_scheduled (.inl ht))
      rw [h.counter, ← hsequence] at hlt
      rw [D.key_lt_iff, htaskTime]
      rcases lt_or_eq_of_le (le_trans (hbefore t ht) hle) with hrank | hrank
      · exact .inl hrank
      · exact .inr ⟨hrank, hlt⟩

/-- Scheduling a task some delay from now keeps the ledger. -/
theorem scheduled (h : Ledger D log a) {now delay time : Number} (timeTag : Nat) (callback : Value)
    (arguments : List Value) (hnow : a.currentTime.number? = some now)
    (hdelay : D.Delay delay) (hpositive : delay.less (.int 0) = false)
    (htime : now.add delay = .ok time) :
    Ledger D (log ++ [.scheduled delay ⟨time, timeTag, a.sequenceCounter, callback, arguments⟩])
      (a.schedule time timeTag callback arguments) := by
  obtain ⟨now', hnow', hmem, -⟩ := h.clock
  obtain rfl : now = now' := Option.some.inj (hnow.symm.trans hnow')
  obtain ⟨htimeMem, hle⟩ := D.add hmem hdelay hpositive htime
  exact h.scheduled_ahead delay timeTag callback arguments hnow htimeMem hle

/-- The next task is the least of those pending, and the others stay pending. -/
theorem pops (h : Ledger D log a) {task : Task} (hpop : a.pop? = some (task, b)) :
    (pending log).Perm (task :: pending (log ++ [.taken task])) ∧
      b.queue.toList.Perm (pending (log ++ [.taken task])) ∧
      ∀ other ∈ pending log, D.key task ≤ D.key other := by
  have hperm := h.holds.symm.trans (Agenda.toList_queue_pop hpop)
  have hnodup := (hperm.map (·.sequence)).nodup_iff.1 h.nodup_pending
  have hkeep : b.queue.toList.filter (·.sequence != task.sequence) = b.queue.toList := by
    refine List.filter_eq_self.2 fun t ht => bne_iff_ne.2 fun hsequence => ?_
    exact (List.nodup_cons.1 hnodup).1 (List.mem_map.2 ⟨t, ht, hsequence⟩)
  have hpending : (pending (log ++ [.taken task])).Perm b.queue.toList := by
    rw [pending_concat]
    refine (hperm.filter _).trans ?_
    rw [List.filter_cons_of_neg (by simp), hkeep]
  obtain ⟨queue, hqueue, -⟩ := Agenda.exists_of_pop hpop
  have hleast := (h.sound.pop (goesBy_before D)
    (fun t ht => h.members t (h.holds.mem_iff.1 ht)) hqueue).2
  exact ⟨hperm.trans (hpending.symm.cons task), hpending.symm,
    fun other hother => hleast other (h.holds.mem_iff.2 hother)⟩

/-- A call leaves the agenda as it is. -/
theorem called (h : Ledger D log a) (f : Value) (arguments : Arguments Value) :
    Ledger D (log ++ [.called f arguments]) a := by
  have hscheduled : scheduledTasks (log ++ [.called f arguments]) = scheduledTasks log :=
    (scheduledTasks_append _ _).trans (List.append_nil _)
  have htaken : takenTasks (log ++ [.called f arguments]) = takenTasks log :=
    (takenTasks_append _ _).trans (List.append_nil _)
  have hpending : pending (log ++ [.called f arguments]) = pending log := pending_concat _ _
  exact {
    numbered := hscheduled.symm ▸ h.numbered
    holds := hpending.symm ▸ h.holds
    complete := by rw [hscheduled, htaken, hpending]; exact h.complete
    least := least_concat h.least fun task htask => by cases htask
    sorted := htaken.symm ▸ h.sorted
    sound := h.sound
    counter := hscheduled.symm ▸ h.counter
    members := hpending.symm ▸ h.members
    clock := by rw [hpending, htaken]; exact h.clock
    behind := by rw [hpending, htaken]; exact h.behind }

/-- Where there is no next task, none is pending. -/
theorem pending_eq_nil (h : Ledger D log a) (hpop : a.pop? = none) : pending log = [] := by
  have hqueue : a.queue.pop? Task.before = none := by
    cases hqueue : a.queue.pop? Task.before with
    | none => rfl
    | some found => simp [Agenda.pop?, hqueue] at hpop
  have hperm := h.holds
  rw [h.sound.pop_none hqueue] at hperm
  exact hperm.nil_eq.symm

/-- Taking the next task keeps the ledger. -/
theorem taken (h : Ledger D log a) {task : Task} (hpop : a.pop? = some (task, b)) :
    Ledger D (log ++ [.taken task]) b := by
  obtain ⟨hsplit, hholds, hleast⟩ := h.pops hpop
  have hscheduled : scheduledTasks (log ++ [.taken task]) = scheduledTasks log := by
    rw [scheduledTasks_append]
    exact List.append_nil _
  have htaken : takenTasks (log ++ [.taken task]) = takenTasks log ++ [task] :=
    takenTasks_append log _
  have htask : task ∈ pending log := hsplit.mem_iff.2 List.mem_cons_self
  have hstill : ∀ t ∈ pending (log ++ [.taken task]), t ∈ pending log := fun t ht =>
    hsplit.mem_iff.2 (List.mem_cons_of_mem task ht)
  have hnodup := (hsplit.map (·.sequence)).nodup_iff.1 h.nodup_pending
  obtain ⟨queue, hqueue, hb⟩ := Agenda.exists_of_pop hpop
  have hdue : task.dueTime.number? = some task.time := by
    unfold Task.dueTime
    cases task.time <;> rfl
  refine {
    numbered := ?_, holds := hholds, complete := ?_, least := ?_, sorted := ?_, sound := ?_,
    counter := ?_, members := fun t ht => h.members t (hstill t ht),
    clock := ⟨task.time, ?_, h.members task htask, ?_, ?_⟩, behind := ?_ }
  · rw [hscheduled]
    exact h.numbered
  · rw [hscheduled, htaken, List.append_assoc]
    exact h.complete.trans (hsplit.append_left _)
  · refine least_concat h.least fun t ht => ?_
    cases ht
    exact ⟨htask, hleast⟩
  · rw [htaken, List.pairwise_append]
    refine ⟨h.sorted, List.pairwise_singleton _ _, fun t ht u hu => ?_⟩
    rw [List.mem_singleton.1 hu]
    exact h.behind t ht task htask
  · rw [hb]
    exact (h.sound.pop (goesBy_before D) (fun t ht => h.members t (h.holds.mem_iff.1 ht)) hqueue).1
  · rw [hb, hscheduled]
    exact h.counter
  · rw [hb]
    exact hdue
  · exact fun t ht => D.rank_le_of_key_le (hleast t (hstill t ht))
  · intro t ht
    rw [htaken, List.mem_append, List.mem_singleton] at ht
    rcases ht with ht | rfl
    · exact D.rank_le_of_key_le (le_of_lt (h.behind t ht task htask))
    · exact le_refl _
  · intro t ht u hu
    rw [htaken, List.mem_append, List.mem_singleton] at ht
    rcases ht with ht | rfl
    · exact h.behind t ht u (hstill u hu)
    · refine lt_of_le_of_ne (hleast u (hstill u hu)) fun hkey => ?_
      have hsequence := D.sequence_eq_of_key_eq hkey.symm
      exact (List.nodup_cons.1 hnodup).1 (List.mem_map.2 ⟨u, hu, hsequence⟩)

/-- Whatever happens to an agenda, the ledger is kept, if what is scheduled is due at a time that is not
before now. -/
theorem becomes (h : Ledger D log a) {happenings : List Happening}
    (hbecomes : a.Becomes happenings b)
    (hahead : ∀ delay task now, happenings = [.scheduled delay task] →
      a.currentTime.number? = some now → D.Mem now → delay.less (.int 0) = false →
      now.add delay = .ok task.time → D.Mem task.time ∧ D.rank now ≤ D.rank task.time) :
    Ledger D (log ++ happenings) b := by
  cases hbecomes with
  | same =>
    rw [List.append_nil]
    exact h
  | @scheduled now delay time timeTag callback arguments hnow hpositive htime =>
    obtain ⟨now', hnow', hmem, -⟩ := h.clock
    obtain rfl : now = now' := Option.some.inj (hnow.symm.trans hnow')
    obtain ⟨htimeMem, hle⟩ := hahead delay _ now rfl hnow hmem hpositive htime
    exact h.scheduled_ahead delay timeTag callback arguments hnow htimeMem hle
  | taken hpop => exact h.taken hpop

end Ledger

end AlgebraicEffects
