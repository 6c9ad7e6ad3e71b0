import AlgebraicEffects.Proofs.Discipline.Effects

/-!
Disciplines of agendas.

What is said of an action and of the store that it begins in can tell what becomes of agendas. If it
composes and is kept by every change that leaves the agendas, then only what makes an agenda, schedules
to it and takes from it has to keep it, and all that is done with event loops and finished runs does.
-/

set_option autoImplicit false

namespace AlgebraicEffects

open Action hiding bind_assoc

section Numbers

variable {s : Store}

theorem Failure.number?_seen (sight : Sight) (f : Failure) (tag : Nat) :
    (f.seen sight tag).number? = none := by
  cases f with
  | caught own f =>
    unfold Failure.seen
    exact f.number?_seen sight own
  | _ =>
    unfold Failure.seen
    rfl

theorem Function.number?_seen (sight : Sight) (tag : Nat) (f : Function) :
    (f.seen sight tag).number? = none := by
  cases f
  all_goals
    unfold Function.seen
    rfl

/-- What can change is not seen as a number. -/
theorem Store.number?_sight (s : Store) (depth : Nat) (path : List Place) :
    (∀ tag shown, (s.sight depth path).container tag = some shown → shown.number? = none) ∧
      ∀ a, ((s.sight depth path).agenda a).number? = none := by
  constructor
  · intro tag shown h
    cases depth with
    | zero => cases h
    | succ depth =>
      simp only [Store.sight] at h
      split at h
      · split at h <;> cases h <;> rfl
      · split at h <;> cases h <;> rfl
      · cases h
  · intro a
    cases depth with
    | zero => rfl
    | succ depth =>
      simp only [Store.sight]
      split
      · split <;> rfl
      · rfl

/-- What is shown as a number is that number. -/
theorem number?_of_show {x : Value} {n : Number} (h : (s.show x).number? = some n) :
    x.number? = some n := by
  obtain ⟨hcontainer, hagenda⟩ := s.number?_sight (s.places + 1) []
  unfold Store.show at h
  cases x with
  | int m | bool b | float tag y =>
    unfold Value.seen at h
    exact h
  | list tag items | dict tag entries =>
    unfold Value.seen at h
    split at h
    · rw [hcontainer _ _ ‹_›] at h
      cases h
    · cases h
  | failure f =>
    unfold Value.seen at h
    rw [f.number?_seen] at h
    cases h
  | function tag f =>
    unfold Value.seen at h
    rw [f.number?_seen] at h
    cases h
  | agenda a =>
    unfold Value.seen at h
    rw [hagenda] at h
    cases h
  | _ =>
    unfold Value.seen at h
    cases h

/-- What can be compared with a number is one. -/
theorem exists_of_less? {x : Snapshot} {n : Int} {b : Bool} (h : x.less? (.int n) = some b) :
    ∃ m, x.number? = some m ∧ m.less (.int n) = b := by
  cases x with
  | int m | bool c | float tag y =>
    unfold Snapshot.less? at h
    exact ⟨_, rfl, Option.some.inj h⟩
  | _ =>
    unfold Snapshot.less? at h
    cases h

end Numbers

section Adding

variable {s : Store}

/-- A number is added as a number. -/
theorem Value.add_eq_onNumbers {now delay : Value} {n : Number} (hdelay : delay.number? = some n) :
    Value.add now delay = Value.onNumbers Number.add now delay := by
  cases delay with
  | int m | bool b | float tag y =>
    unfold Value.add
    split
    all_goals first | contradiction | rfl
  | _ => cases hdelay

theorem number?_ofNumber (tag : Nat) (x : Number) : (Value.ofNumber tag x).number? = some x := by
  cases x <;> rfl

/-- Putting back an agenda changes only the agenda at its address. -/
theorem getElem?_setAgenda (address : Nat) {index : Nat} {a : Agenda} (b : Agenda)
    (ha : s.agendas[index]? = some a) :
    (s.agendas.setIfInBounds index b)[index]? = some b ∧
      (index ≠ address → (s.agendas.setIfInBounds index b)[address]? = s.agendas[address]?) := by
  have hlt := (Array.getElem?_eq_some_iff.1 ha).1
  exact ⟨by simp [hlt], fun hne => Array.getElem?_setIfInBounds_ne hne⟩

/-- A new agenda leaves the others at their addresses. -/
theorem getElem?_addAgenda {address : Nat} {b : Agenda} (a : Agenda)
    (h : s.agendas[address]? = some b) : (s.agendas.push a)[address]? = some b := by
  have hlt := (Array.getElem?_eq_some_iff.1 h).1
  rw [Array.getElem?_push_lt hlt, ← h, Array.getElem?_eq_getElem hlt]

end Adding

/-- Said of an action and the store that it begins in, it composes, and changes beside agendas keep it.
-/
class Attends (T : {α : Type} → Action α → Store → Prop) : Prop where
  done {α : Type} (x : α) (s : Store) : T (.done x) s
  fail {α : Type} (f : Failure) (s : Store) : T (.fail f : Action α) s
  read {α : Type} {k : Store → Action α} {s : Store} : T (k s) s → T (.read k) s
  aside {α : Type} {change : Store → Store} {k : Action α} {s : Store} :
    (change s).agendas = s.agendas → T k (change s) → T (.write change k) s
  call {α : Type} {f : Value} {arguments : Arguments Value} {k : Ending → Action α} {s : Store} :
    (∀ o t, T (k o) t) → T (.call f arguments k) s
  bind {α β : Type} {a : Action α} {k : α → Action β} {s : Store} : T a s → (∀ x t, T (k x) t) →
    T (a.bind k) s
  attempt {α : Type} {a : Action α} {s : Store} : T a s → T a.attempt s

/-- It is so whatever store the action begins in. -/
def Throughout (T : {α : Type} → Action α → Store → Prop) {α : Type} (a : Action α) : Prop :=
  ∀ s, T a s

variable {T : {α : Type} → Action α → Store → Prop} {α : Type}

instance composes_throughout [Attends T] : Composes (Throughout T) where
  done x s := Attends.done x s
  fail f s := Attends.fail f s
  read h s := Attends.read (h s s)
  write hc h s := Attends.aside (hc s).1 (h _)
  call h _ := Attends.call fun o t => h o t
  bind ha hk s := Attends.bind (ha s) fun x t => hk x t
  attempt ha s := Attends.attempt (ha s)

namespace Attends

variable [Attends T] {s : Store}

/-- A comparison reads the store. It goes on where it began, if the values can be compared. -/
theorem of_less {x y : Value} {k : Bool → Action α}
    (h : ∀ b, (s.show x).less? (s.show y) = some b → T (k b) s) : T (Value.less x y >>= k) s := by
  refine Attends.read (Attends.read ?_)
  show T ((Value.ordered ((s.show x).less? (s.show y))).bind k) s
  cases hless : (s.show x).less? (s.show y) with
  | none => exact Attends.fail _ s
  | some b => exact h b hless

/-- A delay that has been checked is a number that is not less than zero. -/
theorem of_checkDelay {delay : Value} {k : Unit → Action α}
    (h : ∀ n, delay.number? = some n → n.less (.int 0) = false → T (k ()) s) :
    T (Host.checkDelay delay >>= k) s := by
  unfold Host.checkDelay
  rw [bind_assoc]
  refine of_less fun isLess hless => ?_
  obtain ⟨n, hn, hnless⟩ := exists_of_less? hless
  cases isLess with
  | true =>
    simp only [if_true, bind_assoc]
    exact Attends.bind (follows_plainText (P := Throughout T) delay s) fun text t => Attends.fail _ t
  | false => exact h n (number?_of_show hn) hnless

theorem of_add {now delay : Value} {n : Number} {k : Value → Action α}
    (hdelay : delay.number? = some n)
    (h : ∀ m time, now.number? = some m → m.add n = .ok time → T (k (.ofNumber 0 time)) s) :
    T (Value.add now delay >>= k) s := by
  rw [Value.add_eq_onNumbers hdelay]
  unfold Value.onNumbers
  rw [hdelay]
  cases hnow : now.number? with
  | none => exact Attends.fail _ s
  | some m =>
    show T ((Value.numeric (m.add n)).bind k) s
    cases htime : m.add n with
    | ok time => exact h m time hnow htime
    | error fault => cases fault <;> exact Attends.fail _ s

/-- The agenda that a host action works on, if there is one. -/
theorem of_agendaAt {index : Nat} {k : Agenda → Action α}
    (h : ∀ a, s.agendas[index]? = some a → T (k a) s) : T (Host.agendaAt index >>= k) s := by
  refine Attends.read ?_
  cases ha : s.agendas[index]? with
  | none => simp only [ha]; exact Attends.fail _ s
  | some a => simp only [ha]; exact h a ha

/-- A number gets its identity, and no agenda changes. -/
theorem of_identify {time : Number} {k : Value → Action α}
    (h : ∀ tag t, t.agendas = s.agendas → T (k (.ofNumber tag time)) t) :
    T (Action.identify (.ofNumber 0 time) >>= k) s := by
  cases time with
  | int n => exact h 0 s rfl
  | float x => exact Attends.read (Attends.aside rfl (h s.nextTag _ rfl))

/-- Scheduling puts back the agenda with one more task, which is due no earlier than now. -/
theorem of_callLaterOnAgenda {index : Nat} {delay callback : Value} {arguments : List Value}
    (h : ∀ a now n time timeTag t (k : Action Value), t.agendas[index]? = some a → a.currentTime.number? = some now →
      n.less (.int 0) = false → now.add n = .ok time → Throughout T k →
      T (Host.setAgenda index (a.schedule time timeTag callback arguments) >>= fun _ => k) t) :
    T (Host.callLaterOnAgenda index delay callback arguments) s := by
  unfold Host.callLaterOnAgenda
  refine of_checkDelay fun n hn hpositive => of_agendaAt fun a ha => ?_
  refine of_add hn fun m time hm htime => of_identify fun tag t ht => ?_
  simp only [number?_ofNumber]
  have hreported : Follows (Throughout T) (do
      let shown ← Action.shown (Value.ofNumber tag time)
      Host.debug ("scheduled task #" ++ toString a.sequenceCounter ++ " at t=" ++ shown.plain)
      return Value.nothing) := by
    grind
  exact h a m n time _ t _ (ht ▸ ha) hm hpositive htime hreported

/-- A new agenda is put behind all others. -/
theorem of_newAgenda {startTime maxSteps : Value}
    (h : ∀ startTime t, T (.write
      (fun s => { s with agendas := s.agendas.push (.starting startTime maxSteps) })
      (.done (.agenda t.agendas.size)) : Action Value) t) :
    T (Host.newAgenda startTime maxSteps) s := by
  have hadd (startTime : Value) : Follows (Throughout T) (.read fun s =>
      .write (fun s => { s with agendas := s.agendas.push (.starting startTime maxSteps) })
        (.done (Value.agenda s.agendas.size))) := fun s => Attends.read (h startTime s)
  suffices hmade : Follows (Throughout T) (Host.newAgenda startTime maxSteps) from hmade s
  unfold Host.newAgenda
  refine follows_bind (follows_identify startTime) fun startTime => ?_
  split
  · exact hadd startTime
  · refine follows_bind (Value.follows_less maxSteps (.int 0)) fun isNegative => ?_
    split
    · exact follows_bind (follows_fail _) fun _ => hadd startTime
    · exact hadd startTime

end Attends

/-- It is kept by everything that is done with agendas. -/
class AgendaDiscipline (T : {α : Type} → Action α → Store → Prop) : Prop extends Attends T where
  newAgenda (startTime maxSteps : Value) (s : Store) : T (Host.newAgenda startTime maxSteps) s
  callLaterOnAgenda (index : Nat) (delay callback : Value) (arguments : List Value) (s : Store) :
    T (Host.callLaterOnAgenda index delay callback arguments) s
  step (index : Nat) (s : Store) : T (Host.step index) s

namespace AgendaDiscipline

variable [AgendaDiscipline T]

theorem follows_beside {change : Store → Store} (h : ∀ s, (change s).agendas = s.agendas) :
    Follows (Throughout T) (update change) := fun s => Attends.aside (h s) (Attends.done () _)

@[grind ←] theorem follows_updateLoop (index : Nat) (change : EventLoop → EventLoop) :
    Follows (Throughout T) (Host.updateLoop index change) :=
  follows_beside fun _ => rfl

@[grind ←] theorem follows_refuse (index : Nat) (f : Failure) :
    Follows (Throughout T) (Host.refuse index f) := by
  unfold Host.refuse
  grind

@[grind ←] theorem follows_register (index : Nat) (isClosed : Bool) (change : EventLoop → EventLoop) :
    Follows (Throughout T) (Host.register index isClosed change) := by
  unfold Host.register
  grind

@[grind ←] theorem follows_runRegistration (index : Nat) (r : Registration) :
    Follows (Throughout T) (Host.runRegistration index r) := by
  unfold Host.runRegistration
  refine follows_bind (Host.follows_loopAt index) fun l => ?_
  split
  · exact follows_updateLoop index _
  · refine follows_bind (follows_attempt (follows_ask r.callback r.arguments)) fun o => ?_
    split
    · exact follows_updateLoop index _
    · grind

theorem follows_callLaterOnLoop (index : Nat) (delay callback : Value) (arguments : List Value) :
    Follows (Throughout T) (Host.callLaterOnLoop index delay callback arguments) := by
  unfold Host.callLaterOnLoop
  grind

theorem follows_callSoonOnLoop (index : Nat) (callback : Value) (arguments : List Value) :
    Follows (Throughout T) (Host.callSoonOnLoop index callback arguments) := by
  unfold Host.callSoonOnLoop
  grind

theorem follows_turn (index : Nat) : Follows (Throughout T) (Host.turn index) := by
  unfold Host.turn
  grind

theorem follows_closingTurn (index : Nat) : Follows (Throughout T) (Host.closingTurn index) := by
  unfold Host.closingTurn
  grind

end AgendaDiscipline

open AgendaDiscipline in
instance discipline_throughout [AgendaDiscipline T] : Discipline (Throughout T) where
  newAgenda := AgendaDiscipline.newAgenda
  callLaterOnAgenda := AgendaDiscipline.callLaterOnAgenda
  step := AgendaDiscipline.step
  newLoop := fun _ => Attends.read (Attends.aside rfl (Attends.done _ _))
  callLaterOnLoop := follows_callLaterOnLoop
  callSoonOnLoop := follows_callSoonOnLoop
  turn := follows_turn
  closingTurn := follows_closingTurn
  closeLoop index := follows_updateLoop index _
  allocateCompleted := fun _ => Attends.read (Attends.aside rfl (Attends.done _ _))
  complete _ _ := follows_beside fun _ => rfl

end AlgebraicEffects
