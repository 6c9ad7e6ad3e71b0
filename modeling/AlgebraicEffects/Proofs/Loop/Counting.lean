import AlgebraicEffects.Proofs.Discipline.Calls
import AlgebraicEffects.Proofs.Queue.Heap
import AlgebraicEffects.Action.Runs

/-!
The count of an event loop is right.

A loop counts the registrations that have not finished. Whatever is called, every registration that is
made is counted and stays so until its callback has been run or passed over, and then the count goes down
by one. A turn takes registrations out of the queues and finishes exactly those, so between turns the
count is the number of registrations in the queues. This is a discipline, so every call follows it, and
along a run the difference between the count and the queues does not change (`Store.Owes.of_runs`).

Registrations that were refused stay counted beside them, and the loop is idle when nothing at all is
counted. Nothing else happens to what a loop counts with (`EventLoop.Becomes`).
-/

set_option autoImplicit false

namespace AlgebraicEffects

open Action hiding bind_assoc

/-- The number of registrations that have not been taken by a turn. -/
def EventLoop.queued (l : EventLoop) : Nat := l.ready.length + l.timers.size

/-- The loop is idle exactly when nothing is counted. -/
def EventLoop.Signals (l : EventLoop) : Prop := l.isIdle = true ↔ l.counted = 0

theorem EventLoop.signals_starting : EventLoop.starting.Signals := ⟨fun _ => rfl, fun _ => rfl⟩

/-- What can happen to a loop: a registration is taken or refused, or one has been run, or passed over,
and is finished. -/
inductive Reckoning where
  | accepted (r : Registration)
  | refused
  | finished (failure : Option Failure)

/-- What a loop counts with, and the failure that it keeps. -/
def EventLoop.tally (l : EventLoop) : Nat × Nat × Bool × Option Failure :=
  (l.outstanding, l.refused, l.isIdle, l.failure)

/-- What happens to a loop when it becomes another one. No registration can finish while none is
outstanding. -/
inductive EventLoop.Becomes (a : EventLoop) : List Reckoning → EventLoop → Prop where
  | soon (r : Registration) : a.Becomes [.accepted r] (a.callSoon r)
  | later (due : Float) (r : Registration) : a.Becomes [.accepted r] (a.callAt due r)
  | refused : a.Becomes [.refused] a.refuse
  | finished (failure : Option Failure) :
      0 < a.outstanding → a.Becomes [.finished failure] (a.finish failure)
  | aside {b : EventLoop} : b.tally = a.tally → a.Becomes [] b

theorem EventLoop.Becomes.signals {a b : EventLoop} {happenings : List Reckoning}
    (h : a.Becomes happenings b) (ha : a.Signals) : b.Signals := by
  unfold Signals counted at *
  cases h with
  | soon | later | refused =>
    simp only [callSoon, callAt, refuse, Bool.false_eq_true, false_iff]
    omega
  | finished _ hpositive =>
    have hbusy : ¬ a.isIdle = true := by
      rw [ha]
      omega
    simp only [finish, Bool.or_eq_true, decide_eq_true_eq]
    exact or_iff_right hbusy
  | aside htally =>
    simp only [tally, Prod.mk.injEq] at htally
    obtain ⟨houtstanding, hrefused, hidle, -⟩ := htally
    rw [houtstanding, hrefused, hidle]
    exact ha

/-- What happens to the loop at an address, if there is one, when a store becomes another one. -/
inductive Store.LoopBecomes (address : Nat) (s : Store) : List Reckoning → Store → Prop where
  | absent {t : Store} : s.loops[address]? = none → LoopBecomes address s [] t
  | present {t : Store} {a b : EventLoop} {happenings : List Reckoning} :
      s.loops[address]? = some a → t.loops[address]? = some b → a.Becomes happenings b →
      LoopBecomes address s happenings t

theorem Store.loopBecomes_of_eq {address : Nat} {s t : Store}
    (h : t.loops[address]? = s.loops[address]?) : s.LoopBecomes address [] t := by
  cases hs : s.loops[address]? with
  | none => exact .absent hs
  | some a => exact .present hs (h.trans hs) (.aside rfl)

/-- The queue of the timers holds as many as it says. -/
def EventLoop.Sized (l : EventLoop) : Prop := l.timers.size = l.timers.toList.length

/-- The loop at an address counts the registrations that wait in it and `taken` more, and is idle when it
counts nothing. -/
def Store.Owes (address taken : Nat) (s : Store) : Prop :=
  ∃ l, s.loops[address]? = some l ∧ l.outstanding = l.queued + taken ∧ l.Signals ∧ l.Sized

theorem Store.Owes.of_eq {address taken : Nat} {s t : Store} (h : s.Owes address taken)
    (he : t.loops[address]? = s.loops[address]?) : t.Owes address taken := by
  obtain ⟨l, hl, hcounts⟩ := h
  exact ⟨l, he.trans hl, hcounts⟩

/-- Along every run of the action from a store, what the loop at the address counts beyond its queues
goes down by `taken` in all, and nothing happens to the loop but what can happen. Nothing is asked of
what is called, as it changes nothing of this, and nothing where there is no such loop. -/
inductive Repays (address : Nat) : {α : Type} → Nat → Action α → Store → Prop where
  | absent {α : Type} {taken : Nat} (a : Action α) {s : Store} :
      s.loops[address]? = none → Repays address taken a s
  | done {α : Type} (x : α) (s : Store) : Repays address 0 (.done x) s
  | fail {α : Type} (f : Failure) (s : Store) : Repays address 0 (.fail f : Action α) s
  | read {α : Type} {taken : Nat} {k : Store → Action α} {s : Store} :
      Repays address taken (k s) s → Repays address taken (.read k) s
  | write {α : Type} {taken left : Nat} {change : Store → Store} {k : Action α} {s : Store} :
      (∀ more, s.Owes address (more + taken) → (change s).Owes address (more + left) ∧
        ∃ happenings, s.LoopBecomes address happenings (change s)) →
      Repays address left k (change s) → Repays address taken (.write change k) s
  | call {α : Type} {taken : Nat} {f : Value} {arguments : Arguments Value} {k : Ending → Action α}
      {s : Store} : (∀ o t, Repays address taken (k o) t) →
      Repays address taken (.call f arguments k) s

namespace Repays

variable {address taken : Nat} {α β : Type} {s : Store}

theorem bind {a : Action α} {k : α → Action β} (h : Repays address taken a s)
    (hk : ∀ x t, Repays address 0 (k x) t) : Repays address taken (a.bind k) s := by
  induction h with
  | absent a hs => exact .absent _ hs
  | done x s => exact hk x s
  | fail f s => exact .fail f s
  | read _ ih => exact .read ih
  | write hc _ ih => exact .write hc ih
  | call _ ih => exact .call ih

theorem attempt {a : Action α} (h : Repays address taken a s) : Repays address taken a.attempt s := by
  induction h with
  | absent a hs => exact .absent _ hs
  | done x s => exact .done _ s
  | fail f s => exact .done _ s
  | read _ ih => exact .read ih
  | write hc _ ih => exact .write hc ih
  | call _ ih => exact .call ih

/-- A change of the store that does not concern the loop. -/
theorem aside {change : Store → Store} {k : Action α}
    (hc : (change s).loops[address]? = s.loops[address]?) (hk : Repays address taken k (change s)) :
    Repays address taken (.write change k) s :=
  .write (fun _ h => ⟨h.of_eq hc, _, Store.loopBecomes_of_eq hc⟩) hk

end Repays

/-- What the loop at the address counts beyond its queues is the same before and after the action. -/
def Balances (address : Nat) {α : Type} (a : Action α) : Prop := ∀ s, Repays address 0 a s

section Composing

variable {address : Nat} {α : Type}

theorem balances_write {change : Store → Store} {k : Action α}
    (hc : ∀ s, (change s).loops = s.loops) (h : Balances address k) :
    Balances address (.write change k) := fun s =>
  .aside (congrArg (·[address]?) (hc s)) (h (change s))

instance composes_balances : Composes (Balances address) where
  done x s := .done x s
  fail f s := .fail f s
  read h s := .read (h s s)
  write hc h := balances_write (fun s => (hc s).2.1) h
  call h _ := .call fun o t => h o t
  bind ha hk s := (ha s).bind fun x t => hk x t
  attempt ha s := (ha s).attempt

end Composing

namespace EventLoop

/-- The timers that are taken and those that are left are all the timers. -/
theorem length_takeDue (now : Float) {count : Nat} {timers : Heap Timer} (h : count ≤ timers.size) :
    (takeDue now count timers).1.length + (takeDue now count timers).2.size = timers.size := by
  induction count generalizing timers with
  | zero => exact Nat.zero_add _
  | succ count ih =>
    unfold takeDue
    cases hpop : timers.pop? Timer.before with
    | none => exact Nat.zero_add _
    | some found =>
      obtain ⟨t, rest⟩ := found
      have hrest := Heap.size_pop hpop
      have hind := @ih rest (by omega)
      by_cases hdue : isDue now t = true
      · simp only [hdue, if_true, List.length_cons]
        omega
      · simp only [hdue, if_false, Bool.false_eq_true]
        exact Nat.zero_add _

/-- What a turn takes no longer waits. -/
theorem queued_beginTurnAt (l : EventLoop) (now : Float) :
    (l.beginTurnAt now).2.queued + (l.beginTurnAt now).1.length = l.queued := by
  have h := length_takeDue now (Nat.le_refl l.timers.size)
  unfold beginTurnAt queued
  simp only [List.length_append, List.length_nil]
  omega

/-- Taking timers out keeps count of the others. -/
theorem sized_takeDue (now : Float) (count : Nat) {timers : Heap Timer}
    (h : timers.size = timers.toList.length) :
    (takeDue now count timers).2.size = (takeDue now count timers).2.toList.length := by
  induction count generalizing timers with
  | zero => exact h
  | succ count ih =>
    unfold takeDue
    cases hpop : timers.pop? Timer.before with
    | none => exact h
    | some found =>
      obtain ⟨t, rest⟩ := found
      have hsize := Heap.size_pop hpop
      have hlength := (Heap.toList_pop hpop).length_eq
      rw [List.length_cons] at hlength
      by_cases hdue : isDue now t = true
      · simp only [hdue, if_true]
        exact ih (by omega)
      · simp only [hdue, if_false, Bool.false_eq_true]
        exact h

theorem sized_beginTurnAt (l : EventLoop) (h : l.Sized) (now : Float) : (l.beginTurnAt now).2.Sized :=
  sized_takeDue now l.timers.size h

theorem Sized.callAt {l : EventLoop} (h : l.Sized) (due : Float) (r : Registration) :
    (l.callAt due r).Sized := by
  have hlength := (l.timers.toList_push Timer.before ⟨due, l.timerCounter, r⟩).length_eq
  unfold Sized at h ⊢
  rw [EventLoop.callAt, hlength, List.length_cons, ← h]
  rfl

end EventLoop

section Loops

variable {address : Nat} {α : Type} {s : Store}

/-- The store after something was done to a loop. -/
def Store.updatingLoop (address : Nat) (change : EventLoop → EventLoop) (s : Store) : Store :=
  { s with loops := s.loops.modify address change }

/-- Changing a loop changes no other loop. -/
theorem getElem?_updated {index : Nat} (change : EventLoop → EventLoop) (h : index ≠ address) :
    (s.loops.modify index change)[address]? = s.loops[address]? := by
  rw [Array.getElem?_modify, if_neg h]

/-- A loop is changed in a way that moves its count against its queues. -/
theorem repays_updateLoop {index taken left : Nat} {change : EventLoop → EventLoop} {k : Action α}
    (hchange : index = address → ∀ l more, s.loops[address]? = some l →
      l.outstanding = l.queued + (more + taken) →
      (change l).outstanding = (change l).queued + (more + left) ∧ (l.Sized → (change l).Sized) ∧
        ∃ happenings, l.Becomes happenings (change l))
    (hother : index ≠ address → taken = left)
    (hk : ∀ t, Repays address left k t) :
    Repays address taken (Host.updateLoop index change >>= fun _ => k) s := by
  refine .write (fun more => ?_) (hk _)
  intro howes
  by_cases haddress : index = address
  · subst haddress
    obtain ⟨l, hl, hcount, hsignals, hsized⟩ := howes
    obtain ⟨hcount', hsized', happenings, hbecomes⟩ := hchange rfl l more hl hcount
    have hnow : (s.loops.modify index change)[index]? = some (change l) := by
      simp only [Array.getElem?_modify, if_true, hl, Option.map_some]
    exact ⟨⟨change l, hnow, hcount', hbecomes.signals hsignals, hsized' hsized⟩, happenings,
      .present hl hnow hbecomes⟩
  · rw [hother haddress] at howes
    have hsame := getElem?_updated (s := s) change haddress
    exact ⟨howes.of_eq hsame, [], Store.loopBecomes_of_eq hsame⟩

/-- A loop is changed so that its count stays right. -/
theorem balances_updateLoop {index : Nat} {change : EventLoop → EventLoop}
    (hchange : ∀ l more, l.outstanding = l.queued + more →
      (change l).outstanding = (change l).queued + more ∧ (l.Sized → (change l).Sized) ∧
        ∃ happenings, l.Becomes happenings (change l)) :
    Balances address (Host.updateLoop index change) := fun _ =>
  repays_updateLoop (fun _ l more _ h => hchange l (more + 0) h) (fun _ => rfl) fun t => .done () t

theorem balances_setAgenda (index : Nat) (a : Agenda) :
    Balances address (Host.setAgenda index a) :=
  balances_write (fun _ => rfl) (.done ())

@[grind ←] theorem Host.follows_setAgenda_balances (index : Nat) (a : Agenda) :
    Follows (Balances address) (Host.setAgenda index a) := balances_setAgenda index a

theorem balances_newAgenda (startTime maxSteps : Value) :
    Follows (Balances address) (Host.newAgenda startTime maxSteps) := by
  have hadd (startTime : Value) : Follows (Balances address) (.read fun s =>
      .write (fun s => { s with agendas := s.agendas.push (.starting startTime maxSteps) })
        (.done (Value.agenda s.agendas.size))) := fun s =>
    .read (.aside rfl (.done _ _))
  unfold Host.newAgenda
  refine follows_bind (follows_identify startTime) fun startTime => ?_
  split
  · exact hadd startTime
  · refine follows_bind (Value.follows_less maxSteps (.int 0)) fun isNegative => ?_
    split
    · exact follows_bind (follows_fail _) fun _ => hadd startTime
    · exact hadd startTime

theorem balances_callLaterOnAgenda (index : Nat) (delay callback : Value) (arguments : List Value) :
    Follows (Balances address) (Host.callLaterOnAgenda index delay callback arguments) := by
  unfold Host.callLaterOnAgenda
  refine follows_bind (Host.follows_checkDelay delay) fun _ => ?_
  refine follows_bind (Host.follows_agendaAt index) fun a => ?_
  refine follows_bind (Value.follows_add a.currentTime delay) fun due => ?_
  grind

theorem balances_step (index : Nat) : Follows (Balances address) (Host.step index) := by
  unfold Host.step
  grind

/-- A new loop gets an address of its own and has nothing to count. -/
theorem balances_newLoop : Balances address Host.newLoop := by
  intro s
  refine .read ?_
  cases hs : s.loops[address]? with
  | none => exact .absent _ hs
  | some l =>
    have hlt := (Array.getElem?_eq_some_iff.1 hs).1
    refine .aside ?_ (.done _ _)
    exact Array.getElem?_push_lt hlt |>.trans (Array.getElem?_eq_getElem hlt).symm

@[grind ←] theorem Host.follows_refuse_balances (index : Nat) (f : Failure) :
    Follows (Balances address) (Host.refuse index f) :=
  follows_bind (balances_updateLoop fun _ _ hl => ⟨hl, id, _, .refused⟩) fun _ => follows_fail f

theorem Host.follows_register_balances (index : Nat) (isClosed : Bool) {change : EventLoop → EventLoop}
    (hcall : Follows (Balances address) (Host.updateLoop index change)) :
    Follows (Balances address) (Host.register index isClosed change) := by
  unfold Host.register
  split
  · exact Host.follows_refuse_balances index _
  · exact follows_bind hcall fun _ => follows_pure _

theorem balances_callLaterOnLoop (index : Nat) (delay callback : Value) (arguments : List Value) :
    Follows (Balances address) (Host.callLaterOnLoop index delay callback arguments) := by
  have hcall (due : Float) : Follows (Balances address)
      (Host.updateLoop index (·.callAt due ⟨callback, arguments⟩)) := by
    refine balances_updateLoop fun l more hl => ⟨?_, fun h => h.callAt due _, _, .later due _⟩
    simp only [EventLoop.callAt, EventLoop.queued, Heap.push] at hl ⊢
    omega
  unfold Host.callLaterOnLoop
  refine follows_bind (Host.follows_checkDelay delay) fun _ => ?_
  refine follows_bind (Host.follows_loopAt index) fun l => ?_
  refine follows_bind (follows_attempt (Value.follows_add (.float 0 l.now) delay)) fun due => ?_
  split
  · exact Host.follows_register_balances index _ (hcall _)
  · exact Host.follows_refuse_balances index _
  · exact Host.follows_refuse_balances index _

theorem balances_callSoonOnLoop (index : Nat) (callback : Value) (arguments : List Value) :
    Follows (Balances address) (Host.callSoonOnLoop index callback arguments) := by
  unfold Host.callSoonOnLoop
  refine follows_bind (Host.follows_loopAt index) fun l => Host.follows_register_balances index _ ?_
  refine balances_updateLoop fun l more hl => ⟨?_, id, _, .soon _⟩
  simp only [EventLoop.callSoon, EventLoop.queued, List.length_append, List.length_singleton] at hl ⊢
  omega

/-- A registration that a turn has taken is finished, however its callback ends. -/
theorem repays_finish {taken : Nat} {k : Action α} (f : Option Failure)
    (hk : ∀ t, Repays address taken k t) :
    Repays address (taken + 1) (Host.updateLoop address (·.finish f) >>= fun _ => k) s := by
  refine repays_updateLoop (fun _ l more _ hl => ⟨?_, id, _, .finished f (by omega)⟩)
    (fun h => absurd rfl h) hk
  simp only [EventLoop.finish, EventLoop.queued] at hl ⊢
  omega

/-- A failure gets its identity, and no loop changes. -/
theorem repays_caught {taken : Nat} {f : Failure} {k : Failure → Action α}
    (hk : ∀ g t, Repays address taken (k g) t) :
    Repays address taken (Action.caught f >>= k) s := by
  unfold Action.caught
  rw [bind_assoc]
  unfold Action.identify
  split
  · exact hk f s
  · refine .read (.aside rfl ?_)
    simp only [Action.bind]
    split <;> exact hk _ _

theorem repays_runRegistration {taken : Nat} (r : Registration) {k : Action α}
    (hk : ∀ t, Repays address taken k t) :
    Repays address (taken + 1) (Host.runRegistration address r >>= fun _ => k) s := by
  unfold Host.runRegistration
  rw [bind_assoc]
  refine .read ?_
  cases hl : s.loops[address]? with
  | none => exact .absent _ hl
  | some l =>
    simp only [hl, Action.bind]
    cases l.failure with
    | some f => exact repays_finish none hk
    | none =>
      refine .call fun o t => ?_
      cases o with
      | ok v => exact repays_finish none hk
      | error f =>
        show Repays address (taken + 1) ((Action.caught f >>= _) >>= _) t
        rw [bind_assoc]
        exact repays_caught fun g u => .read (.aside rfl (repays_finish (some g) hk))

/-- Everything that a turn has taken is finished. -/
theorem repays_forM (rs : List Registration) (s : Store) :
    Repays address rs.length (rs.forM (Host.runRegistration address)) s := by
  induction rs generalizing s with
  | nil => exact .done () s
  | cons r rs ih => exact repays_runRegistration r ih

theorem Host.follows_runRegistration_balances {index : Nat} (h : index ≠ address)
    (r : Registration) : Follows (Balances address) (Host.runRegistration index r) := by
  have hfinish (f : Option Failure) :
      Follows (Balances address) (Host.updateLoop index (·.finish f)) := fun _ =>
    repays_updateLoop (fun he => absurd he h) (fun _ => rfl) fun t => .done () t
  unfold Host.runRegistration
  refine follows_bind (Host.follows_loopAt index) fun l => ?_
  split
  · exact hfinish none
  · refine follows_bind (follows_attempt (follows_ask r.callback r.arguments)) fun o => ?_
    split
    · exact hfinish none
    · refine follows_bind (follows_caught _) fun f => ?_
      refine follows_bind (follows_shown _) fun shown => ?_
      exact follows_bind (Host.follows_debug _) fun _ => hfinish (some f)

/-- A turn that begins in whatever way takes what no longer waits, and finishes it. -/
theorem balances_begun (index : Nat) (begun : EventLoop → List Registration × EventLoop)
    (hwaiting : ∀ l, (begun l).2.queued + (begun l).1.length = l.queued)
    (hsized : ∀ l, l.Sized → (begun l).2.Sized) (htally : ∀ l, (begun l).2.tally = l.tally) :
    Balances address (Host.loopAt index >>= fun l =>
      Host.updateLoop index (fun _ => (begun l).2) >>= fun _ =>
        (begun l).1.forM (Host.runRegistration index)) := by
  intro s
  refine .read ?_
  by_cases haddress : index = address
  · subst haddress
    cases hl : s.loops[index]? with
    | none => exact .absent _ hl
    | some l =>
      simp only [hl]
      refine repays_updateLoop (fun _ l' more hl' hcount => ?_) (fun h => absurd rfl h)
        (repays_forM (begun l).1)
      obtain rfl : l = l' := Option.some.inj (hl.symm.trans hl')
      have hw := hwaiting l
      have ho : (begun l).2.outstanding = l.outstanding := congrArg Prod.fst (htally l)
      exact ⟨by omega, hsized l, _, .aside (htally l)⟩
  · cases hl : s.loops[index]? with
    | none => simp only [hl]; exact .fail _ s
    | some l =>
      simp only [hl]
      exact repays_updateLoop (fun h => absurd h haddress) (fun _ => rfl)
        (follows_forM fun r => Host.follows_runRegistration_balances haddress r)

theorem balances_turn (index : Nat) : Balances address (Host.turn index) :=
  balances_begun index EventLoop.beginTurn (fun l => l.queued_beginTurnAt l.advanced)
    (fun l h => l.sized_beginTurnAt h l.advanced) fun _ => rfl

theorem balances_closingTurn (index : Nat) : Balances address (Host.closingTurn index) :=
  balances_begun index (fun l => l.beginTurnAt l.now) (fun l => l.queued_beginTurnAt l.now)
    (fun l h => l.sized_beginTurnAt h l.now) fun _ => rfl

instance discipline_balances : Discipline (Balances address) where
  newAgenda := balances_newAgenda
  callLaterOnAgenda := balances_callLaterOnAgenda
  step := balances_step
  newLoop := balances_newLoop
  callLaterOnLoop := balances_callLaterOnLoop
  callSoonOnLoop := balances_callSoonOnLoop
  turn := balances_turn
  closingTurn := balances_closingTurn
  closeLoop _ := balances_updateLoop fun _ _ h => ⟨h, id, _, .aside rfl⟩
  allocateCompleted := fun _ => .read (.aside rfl (.done _ _))
  complete _ _ := balances_write (fun _ => rfl) fun s => .done () s

/-- Whatever is called, the count of every loop stays right. -/
theorem balances_apply (address : Nat) (f : Value) (arguments : Arguments Value) :
    Balances address (f.apply arguments) :=
  Value.follows_apply (P := Balances address) f arguments

/-- What the action is to settle is settled when it ends, whichever way it ends. -/
theorem Repays.of_runs {a : Action α} {t : Store} {r : Except Failure α} {taken : Nat}
    (hr : Runs Value.apply a s r t) (ha : Repays address taken a s) {more : Nat}
    (h : s.Owes address (more + taken)) : t.Owes address more := by
  induction hr generalizing taken more with
  | done x s | fail f s =>
    cases ha with
    | absent _ hs => exact absurd h.choose_spec.1 (by simp [hs])
    | _ => exact h
  | read _ ih =>
    cases ha with
    | absent _ hs => exact absurd h.choose_spec.1 (by simp [hs])
    | read ha => exact ih ha h
  | write _ ih =>
    cases ha with
    | absent _ hs => exact absurd h.choose_spec.1 (by simp [hs])
    | write hc ha => exact ih ha (hc more h).1
  | @call _ f arguments _ s _ _ _ _ _ _ ihf ihk =>
    cases ha with
    | absent _ hs => exact absurd h.choose_spec.1 (by simp [hs])
    | call ha => exact ihk (ha _ _) (ihf (balances_apply address f arguments s) h)

/-- Between turns a loop counts exactly the registrations in its queues. -/
theorem Store.Owes.of_runs {a : Action α} {t : Store} {r : Except Failure α} {taken : Nat}
    (h : s.Owes address taken) (ha : Balances address a) (hr : Runs Value.apply a s r t) :
    t.Owes address taken := (ha s).of_runs hr h

end Loops

end AlgebraicEffects
