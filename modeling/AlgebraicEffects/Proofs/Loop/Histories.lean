import AlgebraicEffects.Proofs.Flows.Hosts
import AlgebraicEffects.Proofs.Loop.Counting
import AlgebraicEffects.Proofs.Queue.Histories
import Mathlib.Algebra.GroupWithZero.Nat

/-!
The history of an event loop.

A history is made of calls from outside, of registrations that the loop runs, in whatever order, and of
all that the machine does in them, one step at a time; it may stop anywhere, also in the middle of a
callback. Its log says which registrations have been taken, refused and finished. Main statement: at
every moment the loop counts exactly the registrations that it has taken and not finished, and those that
it has refused; it is idle exactly when it counts nothing, and it keeps the first failure of a callback,
after which it drains without calling anything (`history_exactCount`).
-/

set_option autoImplicit false

namespace AlgebraicEffects

open Action hiding bind_assoc

section Logs

/-- The registrations that were taken, in order. -/
def accepted (log : List Reckoning) : List Registration :=
  log.filterMap fun
    | .accepted r => some r
    | _ => none

/-- How the registrations ended that were finished, in order. -/
def outcomes (log : List Reckoning) : List (Option Failure) :=
  log.filterMap fun
    | .finished failure => some failure
    | _ => none

/-- How many registrations were refused. -/
def refusals (log : List Reckoning) : Nat :=
  log.countP fun
    | .refused => true
    | _ => false

/-- The first failure with which a registration ended. -/
def firstFailure (log : List Reckoning) : Option Failure := (outcomes log).findSome? id

variable (log rest : List Reckoning)

theorem accepted_append : accepted (log ++ rest) = accepted log ++ accepted rest :=
  List.filterMap_append

theorem outcomes_append : outcomes (log ++ rest) = outcomes log ++ outcomes rest :=
  List.filterMap_append

theorem refusals_append : refusals (log ++ rest) = refusals log + refusals rest :=
  List.countP_append

theorem firstFailure_append :
    firstFailure (log ++ rest) = (firstFailure log).or (firstFailure rest) := by
  rw [firstFailure, outcomes_append, List.findSome?_append]
  rfl

end Logs

/-- What the loop counts with is what its log says, and so is the failure that it keeps. -/
structure Accounts (log : List Reckoning) (l : EventLoop) : Prop where
  outstanding : l.outstanding + (outcomes log).length = (accepted log).length
  refused : l.refused = refusals log
  signals : l.Signals
  failure : l.failure = firstFailure log

namespace Accounts

variable {log happenings : List Reckoning} {a b : EventLoop}

theorem starting : Accounts [] EventLoop.starting := ⟨rfl, rfl, EventLoop.signals_starting, rfl⟩

/-- What one happening adds to the log. -/
theorem concat {last : Reckoning} (h : Accounts log a)
    (houtstanding : b.outstanding + (outcomes [last]).length = a.outstanding + (accepted [last]).length)
    (hrefused : b.refused = a.refused + refusals [last]) (hsignals : b.Signals)
    (hfailure : b.failure = a.failure.or (firstFailure [last])) : Accounts (log ++ [last]) b where
  outstanding := by
    have hbefore := h.outstanding
    rw [outcomes_append, accepted_append, List.length_append, List.length_append]
    omega
  refused := by rw [hrefused, h.refused, refusals_append]
  signals := hsignals
  failure := by rw [hfailure, h.failure, firstFailure_append]

/-- What happens to a loop is written down. -/
theorem becomes (h : Accounts log a) (hbecomes : a.Becomes happenings b) :
    Accounts (log ++ happenings) b := by
  have hsignals : b.Signals := hbecomes.signals h.signals
  cases hbecomes with
  | soon | later | refused => exact h.concat rfl rfl hsignals (Option.or_none).symm
  | finished failure hpositive =>
    refine h.concat (Nat.sub_add_cancel hpositive) rfl hsignals ?_
    cases failure <;> cases hfailure : a.failure <;> simp [EventLoop.finish, hfailure, firstFailure, outcomes]
  | aside htally =>
    simp only [EventLoop.tally, Prod.mk.injEq] at htally
    obtain ⟨houtstanding, hrefused, -, hfailure⟩ := htally
    rw [List.append_nil]
    exact ⟨houtstanding ▸ h.outstanding, hrefused.trans h.refused, hsignals, hfailure.trans h.failure⟩

end Accounts

/-- One step of the machine, with what happens in it to a loop. -/
inductive Moment.LoopStep (address : Nat) : Moment → List Reckoning → Moment → Prop where
  | done {v : Value} {k : Ending → Action Value} {ks : Action.Pending} {s : Store} :
      LoopStep address ⟨.done v, k :: ks, s⟩ [] ⟨k (.ok v), ks, s⟩
  | fail {f : Failure} {k : Ending → Action Value} {ks : Action.Pending} {s : Store} :
      LoopStep address ⟨.fail f, k :: ks, s⟩ [] ⟨k (.error f), ks, s⟩
  | read {k : Store → Action Value} {ks : Action.Pending} {s : Store} :
      LoopStep address ⟨.read k, ks, s⟩ [] ⟨k s, ks, s⟩
  | write {change : Store → Store} {k : Action Value} {ks : Action.Pending} {s : Store}
      {happenings : List Reckoning} :
      s.LoopBecomes address happenings (change s) →
      LoopStep address ⟨.write change k, ks, s⟩ happenings ⟨k, ks, change s⟩
  | call {f : Value} {arguments : Arguments Value} {k : Ending → Action Value} {ks : Action.Pending}
      {s : Store} :
      LoopStep address ⟨.call f arguments k, ks, s⟩ [] ⟨f.apply arguments, k :: ks, s⟩

/-- The registrations that wait in a loop. -/
def EventLoop.registered (l : EventLoop) : List Registration :=
  l.ready ++ l.timers.toList.map Timer.registration

theorem EventLoop.Sized.queued_eq {l : EventLoop} (h : l.Sized) : l.queued = l.registered.length := by
  rw [queued, registered, List.length_append, List.length_map, show l.timers.size = _ from h]

/-- A loop takes one of the registrations that wait in it, to run it. Its clock may be put forward, and it
may keep the others in another way. -/
structure EventLoop.Picks (a : EventLoop) (r : Registration) (b : EventLoop) : Prop where
  registered : a.registered.Perm (r :: b.registered)
  tally : b.tally = a.tally
  sized : b.Sized

/-- The machine at rest, after it has come to an end. -/
def Moment.rest (o : Ending) (s : Store) : Moment := ⟨ofExcept o, [], s⟩

/-- The loop at an address begins to run a registration that it has taken. -/
def Moment.running (address : Nat) (r : Registration) (s : Store) : Moment :=
  ⟨(Host.runRegistration address r).bind fun _ => .done .nothing, [], s⟩

/-- What has happened since a store to the loop at the address, up to a moment. At rest anything can be
called from outside, and the loop can run any of the registrations that wait in it; until then it stays
as it is. -/
inductive LoopHistory (address : Nat) (start : Store) : List Reckoning → Moment → Prop where
  | begin (o : Ending) : LoopHistory address start [] (.rest o start)
  | call {log : List Reckoning} {o : Ending} {s t : Store} (f : Value) (arguments : Arguments Value) :
      LoopHistory address start log (.rest o s) → t.loops[address]? = s.loops[address]? →
      LoopHistory address start log ⟨f.apply arguments, [], t⟩
  | run {log : List Reckoning} {o : Ending} {s t : Store} {a b : EventLoop} {r : Registration} :
      LoopHistory address start log (.rest o s) → s.loops[address]? = some a →
      t.loops[address]? = some b → a.Picks r b → LoopHistory address start log (.running address r t)
  | step {log happenings : List Reckoning} {m n : Moment} :
      LoopHistory address start log m → m.LoopStep address happenings n →
      LoopHistory address start (log ++ happenings) n

section Keeping

/-- What every history keeps: the loop is tallied, and beside what waits in it, it counts what the action
and what waits for the end of the action are to finish. -/
structure Reckoned (address : Nat) (log : List Reckoning) (m : Moment) : Prop where
  tallied : ∃ l, m.store.loops[address]? = some l ∧ Accounts log l
  owes : ∃ (taken : Nat) (owed : List Nat), Repays address taken m.action m.store ∧
    List.Forall₂ (fun k n => ∀ o t, Repays address n (k o) t) m.pending owed ∧
    m.store.Owes address (owed.sum + taken)

variable {address : Nat} {log happenings : List Reckoning} {m n : Moment} {s t : Store}

/-- What happens in a store to a loop that is there happens to the loop. -/
theorem Store.LoopBecomes.exists_loop {a : EventLoop} (h : s.LoopBecomes address happenings t)
    (ha : s.loops[address]? = some a) : ∃ b, t.loops[address]? = some b ∧ a.Becomes happenings b := by
  cases h with
  | absent hnone =>
    rw [ha] at hnone
    cases hnone
  | present ha' hb h =>
    rw [ha] at ha'
    cases ha'
    exact ⟨_, hb, h⟩

theorem Store.Owes.ne_none {taken : Nat} (h : s.Owes address taken) : s.loops[address]? ≠ none := by
  obtain ⟨l, hl, -⟩ := h
  rw [hl]
  exact Option.some_ne_none l

/-- Every step of the machine keeps what histories keep. -/
theorem Reckoned.step (h : Reckoned address log m) (hstep : m.LoopStep address happenings n) :
    Reckoned address (log ++ happenings) n := by
  obtain ⟨⟨l, hl, htallied⟩, taken, owed, hrepays, hpending, howes⟩ := h
  cases hstep with
  | done =>
    rw [List.append_nil]
    cases hrepays with
    | absent _ hnone => exact absurd hnone howes.ne_none
    | done =>
      cases hpending with
      | @cons _ next _ owed hk hks =>
        refine ⟨⟨l, hl, htallied⟩, next, owed, hk _ _, hks, ?_⟩
        rwa [Nat.add_zero, List.sum_cons, Nat.add_comm] at howes
  | fail =>
    rw [List.append_nil]
    cases hrepays with
    | absent _ hnone => exact absurd hnone howes.ne_none
    | fail =>
      cases hpending with
      | @cons _ next _ owed hk hks =>
        refine ⟨⟨l, hl, htallied⟩, next, owed, hk _ _, hks, ?_⟩
        rwa [Nat.add_zero, List.sum_cons, Nat.add_comm] at howes
  | read =>
    rw [List.append_nil]
    cases hrepays with
    | absent _ hnone => exact absurd hnone howes.ne_none
    | read hk => exact ⟨⟨l, hl, htallied⟩, taken, owed, hk, hpending, howes⟩
  | write hbecomes =>
    obtain ⟨b, hb, hlb⟩ := hbecomes.exists_loop hl
    cases hrepays with
    | absent _ hnone => exact absurd hnone howes.ne_none
    | write hc hk =>
      exact ⟨⟨b, hb, htallied.becomes hlb⟩, _, owed, hk, hpending, (hc owed.sum howes).1⟩
  | call =>
    rw [List.append_nil]
    cases hrepays with
    | absent _ hnone => exact absurd hnone howes.ne_none
    | call hk =>
      refine ⟨⟨l, hl, htallied⟩, 0, taken :: owed, balances_apply address _ _ _, .cons hk hpending, ?_⟩
      rwa [List.sum_cons, Nat.add_zero, Nat.add_comm]

/-- The machine can always go on, and what happens in its next step is written down. -/
theorem Reckoned.exists_step (h : Reckoned address log m) (hnext : m.next? = some n) :
    ∃ happenings, m.LoopStep address happenings n := by
  obtain ⟨-, taken, owed, hrepays, -, howes⟩ := h
  obtain ⟨action, pending, store⟩ := m
  cases action
  case done =>
    cases pending <;> cases hnext
    exact ⟨_, .done⟩
  case fail =>
    cases pending <;> cases hnext
    exact ⟨_, .fail⟩
  case read =>
    cases hnext
    exact ⟨_, .read⟩
  case write =>
    cases hnext
    cases hrepays with
    | absent _ hnone => exact absurd hnone howes.ne_none
    | write hc hk =>
      obtain ⟨-, happenings, hbecomes⟩ := hc owed.sum howes
      exact ⟨happenings, .write hbecomes⟩
  case call =>
    cases hnext
    exact ⟨_, .call⟩

/-- At rest all that the loop has taken and not finished waits in it. -/
theorem Reckoned.owes_rest {o : Ending} (h : Reckoned address log (.rest o s)) : s.Owes address 0 := by
  obtain ⟨-, taken, owed, hrepays, hpending, howes⟩ := h
  cases hpending
  cases o <;> cases hrepays with
  | absent _ hnone => exact absurd hnone howes.ne_none
  | _ => exact howes

theorem Reckoned.outstanding_rest {o : Ending} {l : EventLoop} (h : Reckoned address log (.rest o s))
    (hl : s.loops[address]? = some l) : l.outstanding = l.registered.length := by
  obtain ⟨c, hc, hcount, -, hsized⟩ := h.owes_rest
  obtain rfl : l = c := Option.some.inj (hl.symm.trans hc)
  exact hcount.trans hsized.queued_eq

/-- Every history that begins with a new loop keeps the count of the loop. -/
theorem LoopHistory.reckoned {start : Store} (h : LoopHistory address start log m)
    (hstart : start.loops[address]? = some .starting) : Reckoned address log m := by
  induction h with
  | begin o =>
    refine ⟨⟨_, hstart, .starting⟩, 0, [], ?_, .nil, _, hstart, rfl, EventLoop.signals_starting, rfl⟩
    cases o
    · exact .fail _ start
    · exact .done _ start
  | call f arguments _ ht ih =>
    obtain ⟨l, hl, htallied⟩ := ih.tallied
    exact ⟨⟨l, ht.trans hl, htallied⟩, 0, [], balances_apply address f arguments _, .nil,
      ih.owes_rest.of_eq ht⟩
  | @run log o s t a b r _ ha hb hpicks ih =>
    obtain ⟨l, hl, htallied⟩ := ih.tallied
    obtain rfl : a = l := Option.some.inj (ha.symm.trans hl)
    have hbefore : Accounts log b := List.append_nil log ▸ htallied.becomes (.aside hpicks.tally)
    refine ⟨⟨b, hb, hbefore⟩, 1, [], repays_runRegistration r fun t => .done _ t, .nil, b, hb, ?_,
      hbefore.signals, hpicks.sized⟩
    have houtstanding : b.outstanding = a.outstanding := congrArg Prod.fst hpicks.tally
    have hlength := hpicks.registered.length_eq
    rw [houtstanding, ih.outstanding_rest ha, hlength, hpicks.sized.queued_eq]
    rfl
  | step _ hstep ih => exact ih.step hstep

end Keeping

section Registering

variable {address : Nat} {s : Store} {l : EventLoop}

theorem exists_traced_plainText (v : Value) (s : Store) : ∃ r, Traced (plainText v) s [] r s := by
  have hwritable : ∃ r, Traced (writable v) s [] r s := by
    cases hkind : (s.show v).unwritable? with
    | none => exact ⟨.ok _, .read (by simp only [Action.bind, hkind]; exact .done _ s)⟩
    | some kind =>
      cases kind <;>
        exact ⟨.error _, .read (by simp only [Action.bind, hkind]; exact .fail _ s)⟩
  obtain ⟨r, hr⟩ := hwritable
  cases r with
  | ok x => exact ⟨_, hr.bind (.done _ s)⟩
  | error f => exact ⟨_, hr.bind_error⟩

/-- A delay that is no number, or less than zero, is rejected. -/
theorem exists_traced_checkDelay {delay : Value}
    (h : ∀ d, delay.number? = some d → d.less (.int 0) = true) (s : Store) :
    ∃ f, Traced (Host.checkDelay delay) s [] (.error f) s := by
  unfold Host.checkDelay
  cases hless : (s.show delay).less? (s.show (.int 0)) with
  | none =>
    have hfails : Traced (Value.less delay (.int 0)) s [] (.error (.fault .badType)) s :=
      .read (.read (by
        show Traced (Value.ordered ((s.show delay).less? (s.show (.int 0)))) s [] _ s
        rw [hless]
        exact .fail _ s))
    exact ⟨_, hfails.bind_error⟩
  | some b =>
    obtain ⟨d, hd, hb⟩ := exists_of_less? hless
    rw [h d (number?_of_show hd)] at hb
    subst hb
    have hchecked : Traced (Value.less delay (.int 0)) s [] (.ok true) s :=
      .read (.read (by
        show Traced (Value.ordered ((s.show delay).less? (s.show (.int 0)))) s [] _ s
        rw [hless]
        exact .done _ s))
    obtain ⟨r, hr⟩ := exists_traced_plainText delay s
    have hfails : ∃ f, Traced ((plainText delay).bind fun text =>
        (.fail (.delayNegative text) : Action Unit)) s [] (.error f) s := by
      cases r with
      | ok text => exact ⟨_, hr.bind (.fail _ s)⟩
      | error f => exact ⟨f, hr.bind_error⟩
    obtain ⟨f, hf⟩ := hfails
    exact ⟨f, hchecked.bind hf⟩

/-- What registering a callback with a loop for later comes to. A delay that is rejected changes
nothing; otherwise the registration is counted, and the loop takes it if it is open and the time has a
nearest double, or else refuses it. -/
structure RegistersLater (address : Nat) (s : Store) (l : EventLoop) (delay callback : Value)
    (arguments : List Value) (o : Ending) (t : Store) : Prop where
  traced : Traced (Host.callLaterOnLoop address delay callback arguments) s [] o t
  rejected : (∀ d, delay.number? = some d → d.less (.int 0) = true) → (∃ f, o = .error f) ∧ t = s
  taken {d : Number} {x : Float} : delay.number? = some d → d.less (.int 0) = false →
    d.toFloat = .ok x → l.isClosed = false →
    o = .ok .nothing ∧ t = s.updatingLoop address (·.callAt (l.now + x) ⟨callback, arguments⟩)
  refused {d : Number} : delay.number? = some d → d.less (.int 0) = false →
    (∀ x, d.toFloat ≠ .ok x) ∨ l.isClosed = true →
    (∃ f, o = .error f) ∧ t = s.updatingLoop address (·.refuse)

theorem traced_refuse (f : Failure) (s : Store) :
    Traced (Host.refuse address f) s [] (.error f) (s.updatingLoop address (·.refuse)) :=
  .write (.fail f _)

theorem exists_registersLater (hl : s.loops[address]? = some l) (delay callback : Value)
    (arguments : List Value) : ∃ o t, RegistersLater address s l delay callback arguments o t := by
  by_cases hrejected : ∀ d, delay.number? = some d → d.less (.int 0) = true
  · obtain ⟨f, hf⟩ := exists_traced_checkDelay hrejected s
    refine ⟨.error f, s, hf.bind_error, fun _ => ⟨⟨f, rfl⟩, rfl⟩, ?_, ?_⟩
    · intro d x hd hless
      rw [hrejected d hd] at hless
      cases hless
    · intro d hd hless
      rw [hrejected d hd] at hless
      cases hless
  · obtain ⟨d, hd, hless⟩ : ∃ d, delay.number? = some d ∧ d.less (.int 0) = false := by
      simpa only [not_forall, exists_prop, Bool.not_eq_true] using hrejected
    have hchecked := traced_checkDelay hd hless s
    have hadd : Value.add (.float 0 l.now) delay = Value.numeric ((Number.float l.now).add d) :=
      add_numbers (number?_ofNumber 0 (.float l.now)) hd
    have hnot : ¬ ∀ d, delay.number? = some d → d.less (.int 0) = true := hrejected
    -- The delay is the only number to consider from here on.
    have honly {e : Number} (he : delay.number? = some e) : e = d := Option.some.inj (he.symm.trans hd)
    cases hx : d.toFloat with
    | error fault =>
      have hsum : ∃ f, Value.add (.float 0 l.now) delay = .fail f := by
        have hcombined : (Number.float l.now).add d = d.toFloat >>= fun y => .ok (.float (l.now + y)) := by
          cases d <;> rfl
        rw [hadd, hcombined, hx]
        cases fault <;> exact ⟨_, rfl⟩
      obtain ⟨f, hsum⟩ := hsum
      refine ⟨.error f, s.updatingLoop address (·.refuse), hchecked.bind ((traced_loopAt hl).bind ?_),
        fun h => absurd h hnot, ?_, fun _ _ _ => ⟨⟨f, rfl⟩, rfl⟩⟩
      · rw [hsum]
        exact traced_refuse f s
      · intro e x he _ htoFloat
        rw [honly he, hx] at htoFloat
        cases htoFloat
    | ok x =>
      have hsum : Value.add (.float 0 l.now) delay = .done (.float 0 (l.now + x)) := by
        rw [hadd, Number.float_add hx]
        rfl
      cases hclosed : l.isClosed with
      | false =>
        refine ⟨.ok .nothing, s.updatingLoop address (·.callAt (l.now + x) ⟨callback, arguments⟩),
          hchecked.bind ((traced_loopAt hl).bind ?_), fun h => absurd h hnot, ?_, ?_⟩
        · rw [hsum]
          exact traced_register _ hclosed
        · intro e y he _ hy _
          rw [honly he, hx] at hy
          cases hy
          exact ⟨rfl, rfl⟩
        · rintro e he _ (hnone | hclosed')
          · exact absurd hx (honly he ▸ hnone x)
          · rw [hclosed] at hclosed'
            cases hclosed'
      | true =>
        refine ⟨.error (.fault .runtime), s.updatingLoop address (·.refuse),
          hchecked.bind ((traced_loopAt hl).bind ?_), fun h => absurd h hnot, ?_,
          fun _ _ _ => ⟨⟨_, rfl⟩, rfl⟩⟩
        · rw [hsum]
          show Traced (Host.register address l.isClosed _) s [] _ _
          rw [hclosed]
          exact traced_refuse _ s
        · intro e y _ _ _ hopen
          rw [hclosed] at hopen
          cases hopen

/-- A loop that is open takes what is registered for the next turn, and one that is closed counts it and
refuses it. -/
theorem traced_callSoonOnLoop (hl : s.loops[address]? = some l) (callback : Value)
    (arguments : List Value) :
    (l.isClosed = false → Traced (Host.callSoonOnLoop address callback arguments) s [] (.ok .nothing)
      (s.updatingLoop address (·.callSoon ⟨callback, arguments⟩))) ∧
    (l.isClosed = true → ∃ f, Traced (Host.callSoonOnLoop address callback arguments) s [] (.error f)
      (s.updatingLoop address (·.refuse))) := by
  refine ⟨fun hopen => (traced_loopAt hl).bind (traced_register _ hopen),
    fun hclosed => ⟨.fault .runtime, (traced_loopAt hl).bind ?_⟩⟩
  rw [hclosed]
  exact traced_refuse _ s

end Registering

section Running

variable {address : Nat} {s t : Store} {a b l : EventLoop} {r : Registration} {log : List Reckoning}

/-- A failure with its identity. -/
def Store.caught (s : Store) (f : Failure) : Failure :=
  match (s.identify (.failure f)).1 with
  | .failure g => g
  | _ => f

theorem traced_caught (f : Failure) (s : Store) :
    Traced (Action.caught f) s [] (.ok (s.caught f)) (s.identify (.failure f)).2 := by
  refine (traced_identify s (.failure f)).bind ?_
  unfold Store.caught
  generalize (s.identify (.failure f)).1 = v
  cases v <;> exact .done _ _

/-- What a loop is to keep of the end of a callback. -/
def Store.kept (s : Store) : Ending → Option Failure
  | .ok _ => none
  | .error f => some (s.caught f)

/-- As long as no callback has failed, running a registration calls its callback, and nothing else. The
loop keeps the failure of the callback, if it fails. -/
theorem traced_running {cs : List Call} {q : Except Failure Unit} (hl : s.loops[address]? = some l)
    (hnone : l.failure = none) (h : Traced (Host.runRegistration address r) s cs q t) :
    ∃ inner o u, cs = [.mk r.callback (.of r.arguments) inner] ∧
      Traced (r.callback.apply (.of r.arguments)) s inner o u ∧ q = .ok () ∧
      t.loops = u.loops.modify address (·.finish (u.kept o)) := by
  obtain ⟨es, rfl, h⟩ := h.of_bind (traced_loopAt hl)
  rw [hnone] at h
  obtain ⟨ds, p, u, hattempt⟩ := h.exists_of_bind
  obtain ⟨o, rfl, hask⟩ := hattempt.of_attempt
  obtain ⟨inner, rfl, hcallback⟩ := hask.of_invoke
  obtain ⟨fs, rfl, h⟩ := h.of_bind hattempt
  cases o with
  | ok v =>
    cases h with
    | write h =>
      cases h
      exact ⟨inner, _, u, rfl, hcallback, rfl, rfl⟩
  | error f =>
    obtain ⟨gs, rfl, h⟩ := h.of_bind (traced_caught f u)
    -- The failure is reported, and then the registration is finished.
    cases h with | read h => cases h with | write h => cases h with | write h =>
    cases h
    exact ⟨inner, _, u, rfl, hcallback, rfl,
      congrArg (·.modify address (·.finish (some (u.caught f)))) (u.loops_identify _)⟩

/-- Once a callback has failed, a registration is passed over: nothing is called, and it is finished. -/
theorem traced_passing {f : Failure} (hl : s.loops[address]? = some l) (hf : l.failure = some f)
    (r : Registration) :
    Traced (Host.runRegistration address r) s [] (.ok ()) (s.updatingLoop address (·.finish none)) := by
  refine (traced_loopAt hl).bind ?_
  rw [hf]
  exact .write (.done _ _)

theorem getElem?_updatingLoop (hl : s.loops[address]? = some l) (change : EventLoop → EventLoop) :
    (s.updatingLoop address change).loops[address]? = some (change l) := by
  simp only [Store.updatingLoop, Array.getElem?_modify, if_true, hl, Option.map_some]

/-- A registration that is passed over is only finished. -/
theorem LoopHistory.passed {start : Store} {f : Failure}
    (h : LoopHistory address start log (.running address r t)) (hb : t.loops[address]? = some b)
    (hf : b.failure = some f) (hpositive : 0 < b.outstanding) :
    LoopHistory address start (log ++ [.finished none])
      (.rest (.ok .nothing) (t.updatingLoop address (·.finish none))) := by
  have hread := h.step .read
  rw [List.append_nil] at hread
  have hwrite : t.LoopBecomes address [.finished none] (t.updatingLoop address (·.finish none)) :=
    .present hb (getElem?_updatingLoop hb _) (.finished none hpositive)
  simp only [hb, Action.bind, hf] at hread
  exact hread.step (.write hwrite)

/-- The loop runs these registrations in this order, and nothing is called. -/
inductive PassesOver (address : Nat) : List Registration → Store → Store → Prop where
  | nil (s : Store) : PassesOver address [] s s
  | cons {r : Registration} {rs : List Registration} {s t u v : Store} {a b : EventLoop} :
      s.loops[address]? = some a → t.loops[address]? = some b → a.Picks r b →
      Traced (Host.runRegistration address r) t [] (.ok ()) u → PassesOver address rs u v →
      PassesOver address (r :: rs) s v

/-- After a failure the registrations that wait are passed over, in whatever order the loop runs them. -/
theorem LoopHistory.exists_passesOver {start : Store} {f : Failure} {o : Ending} {rs : List Registration}
    (hstart : start.loops[address]? = some .starting) (h : LoopHistory address start log (.rest o s))
    (hl : s.loops[address]? = some l) (hf : l.failure = some f) (hrs : l.registered.Perm rs) :
    ∃ p t, PassesOver address rs s t ∧
      LoopHistory address start (log ++ List.replicate rs.length (.finished none)) (.rest p t) := by
  induction rs generalizing log s l o with
  | nil => exact ⟨o, s, .nil s, (List.append_nil log).symm ▸ h⟩
  | cons r rs ih =>
    let b : EventLoop := { l with ready := rs, timers := .empty }
    let taken : Store := s.updatingLoop address fun _ => b
    have hregistered : b.registered = rs := List.append_nil rs
    have hpicks : l.Picks r b := ⟨hregistered.symm ▸ hrs, rfl, rfl⟩
    have hb : taken.loops[address]? = some b := getElem?_updatingLoop hl fun _ => b
    have hpositive : 0 < b.outstanding := by
      show 0 < l.outstanding
      rw [(h.reckoned hstart).outstanding_rest hl, hrs.length_eq]
      exact Nat.succ_pos _
    have hpassed := (h.run hl hb hpicks).passed hb hf hpositive
    obtain ⟨p, t, hpasses, hlast⟩ := ih hpassed (getElem?_updatingLoop hb _)
      (show (l.failure <|> none) = some f by rw [hf]; rfl) (hregistered ▸ List.Perm.refl _)
    refine ⟨p, t, .cons hl hb hpicks (traced_passing hb hf r) hpasses, ?_⟩
    rwa [List.append_assoc] at hlast

end Running

/-- What a loop counts is what was taken and has not finished, beside what was refused. It is idle exactly
when it counts nothing, and it keeps the first failure. -/
structure ExactCount (log : List Reckoning) (l : EventLoop) : Prop where
  finished : (outcomes log).length ≤ (accepted log).length
  counted : l.counted = (accepted log).length - (outcomes log).length + refusals log
  isIdle : l.isIdle = true ↔ l.counted = 0
  failure : l.failure = firstFailure log

theorem Accounts.exactCount {log : List Reckoning} {l : EventLoop} (h : Accounts log l) :
    ExactCount log l := by
  have houtstanding := h.outstanding
  refine ⟨by omega, ?_, h.signals, h.failure⟩
  rw [EventLoop.counted, h.refused]
  omega

/-- Running what waits in a loop that has failed finishes it, and leaves the first failure. -/
theorem LoopHistory.exists_drained {address : Nat} {start : Store} {log : List Reckoning} {o : Ending}
    {s : Store} {l : EventLoop} {f : Failure} {rs : List Registration}
    (h : LoopHistory address start log (.rest o s)) (hstart : start.loops[address]? = some .starting)
    (hl : s.loops[address]? = some l) (hf : l.failure = some f) (hrs : l.registered.Perm rs) :
    ∃ p t b, PassesOver address rs s t ∧
      LoopHistory address start (log ++ List.replicate rs.length (.finished none)) (.rest p t) ∧
      t.loops[address]? = some b ∧ b.outstanding = 0 ∧ b.failure = some f ∧
      (b.isIdle = true ↔ refusals log = 0) := by
  have hreckoned := h.reckoned hstart
  obtain ⟨c, hc, htallied⟩ := hreckoned.tallied
  obtain rfl : l = c := Option.some.inj (hl.symm.trans hc)
  obtain ⟨p, t, hpasses, hlast⟩ := h.exists_passesOver hstart hl hf hrs
  obtain ⟨b, hb, hdrained⟩ := (hlast.reckoned hstart).tallied
  have houtcomes : (outcomes (List.replicate rs.length (.finished none))).length = rs.length := by
    simp [outcomes]
  have haccepted : accepted (List.replicate rs.length (.finished none)) = [] := by simp [accepted]
  have hrefusals : refusals (List.replicate rs.length (.finished none)) = 0 := by
    simp [refusals, List.countP_replicate]
  have hzero : b.outstanding = 0 := by
    have hbefore := htallied.outstanding
    have hafter := hdrained.outstanding
    rw [hreckoned.outstanding_rest hl, hrs.length_eq] at hbefore
    rw [outcomes_append, accepted_append, List.length_append, List.length_append, houtcomes, haccepted,
      List.length_nil] at hafter
    omega
  refine ⟨p, t, b, hpasses, hlast, hb, hzero, ?_, ?_⟩
  · rw [hdrained.failure, firstFailure_append, ← htallied.failure, hf]
    rfl
  · rw [show (b.isIdle = true ↔ b.counted = 0) from hdrained.signals, EventLoop.counted, hzero,
      hdrained.refused, refusals_append, hrefusals, Nat.zero_add, Nat.add_zero]

/-- In every history that begins with a new loop, whatever is called, from outside or from inside
callbacks, and in whatever order the loop runs what is registered, the loop counts exactly the
registrations that it has taken and not finished, beside those that it has refused; nothing else ever
happens to it. The first failure of a callback is kept for ever. At rest all that is outstanding waits in
the loop. A delay that is rejected changes nothing. As long as no callback has failed, each registration
that is run calls its callback and nothing else; afterwards it calls nothing, and the registrations that
wait are finished in whatever order they are run, until none is outstanding. -/
theorem history_exactCount {address : Nat} {start : Store} {log : List Reckoning} {m : Moment}
    (hstart : start.loops[address]? = some .starting) (h : LoopHistory address start log m) :
    ∃ l, m.store.loops[address]? = some l ∧ ExactCount log l ∧
      (∀ n, m.next? = some n → ∃ happenings, m.LoopStep address happenings n) ∧
      (∀ f more n, l.failure = some f → LoopHistory address start (log ++ more) n →
        ∃ b, n.store.loops[address]? = some b ∧ b.failure = some f) ∧
      (∀ o s, m = .rest o s → l.outstanding = l.registered.length) ∧
      (∀ delay callback arguments,
        ∃ o t, RegistersLater address m.store l delay callback arguments o t) ∧
      (∀ callback arguments,
        (l.isClosed = false →
          Traced (Host.callSoonOnLoop address callback arguments) m.store [] (.ok .nothing)
            (m.store.updatingLoop address (·.callSoon ⟨callback, arguments⟩))) ∧
        (l.isClosed = true → ∃ f,
          Traced (Host.callSoonOnLoop address callback arguments) m.store [] (.error f)
            (m.store.updatingLoop address (·.refuse)))) ∧
      (∀ r cs q t, Traced (Host.runRegistration address r) m.store cs q t → q = .ok () ∧
        (l.failure = none → ∃ inner o u, cs = [.mk r.callback (.of r.arguments) inner] ∧
          Traced (r.callback.apply (.of r.arguments)) m.store inner o u ∧
          t.loops = u.loops.modify address (·.finish (u.kept o))) ∧
        ∀ f, l.failure = some f → cs = [] ∧ t = m.store.updatingLoop address (·.finish none)) ∧
      ∀ o s f rs, m = .rest o s → l.failure = some f → l.registered.Perm rs →
        ∃ p t b, PassesOver address rs s t ∧
          LoopHistory address start (log ++ List.replicate rs.length (.finished none)) (.rest p t) ∧
          t.loops[address]? = some b ∧ b.outstanding = 0 ∧ b.failure = some f ∧
          (b.isIdle = true ↔ refusals log = 0) := by
  have hreckoned := h.reckoned hstart
  obtain ⟨l, hl, htallied⟩ := hreckoned.tallied
  refine ⟨l, hl, htallied.exactCount, fun n => hreckoned.exists_step, ?_, ?_,
    fun delay callback arguments => exists_registersLater hl delay callback arguments,
    fun callback arguments => traced_callSoonOnLoop hl callback arguments, ?_, ?_⟩
  · intro f more n hf hmore
    obtain ⟨b, hb, hlater⟩ := (hmore.reckoned hstart).tallied
    refine ⟨b, hb, ?_⟩
    rw [hlater.failure, firstFailure_append, ← htallied.failure, hf]
    rfl
  · rintro o s rfl
    exact hreckoned.outstanding_rest hl
  · intro r cs q t hrun
    cases hfailure : l.failure with
    | none =>
      obtain ⟨inner, o, u, hcs, hcallback, hq, ht⟩ := traced_running hl hfailure hrun
      exact ⟨hq, fun _ => ⟨inner, o, u, hcs, hcallback, ht⟩, nofun⟩
    | some f =>
      obtain ⟨hcs, hq, ht⟩ := hrun.unique (traced_passing hl hfailure r)
      exact ⟨hq, nofun, fun _ _ => ⟨hcs, ht⟩⟩
  · rintro o s f rs rfl hf hrs
    exact h.exists_drained hstart hl hf hrs

/-- A callback that fails, as it is called without the argument that it needs. -/
def failing : Registration := ⟨.function 0 .lastOf, []⟩

/-- It is registered for the next turn, and the loop runs it. -/
theorem exists_history_failing :
    ∃ f m, LoopHistory 0 .atLoop [.accepted failing, .finished (some f)] m := by
  have hbegun : LoopHistory 0 .atLoop [] _ :=
    .call (.function 0 (.method .callSoonOnLoop)) (.of [.loopHost 0, .function 0 .lastOf])
      (.begin (.ok .nothing)) rfl
  have hregistered := (hbegun.step .read).step (.write (.present rfl rfl (.soon failing)))
  have hrunning := LoopHistory.run (o := .ok .nothing) (r := failing)
    (t := Store.updatingLoop 0 (fun _ => { EventLoop.starting.callSoon failing with ready := [] }) .atLoop)
    hregistered rfl rfl ⟨List.Perm.refl _, rfl, rfl⟩
  have hfailed := ((hrunning.step .read).step .call).step .fail
  -- The failure gets its identity, and is reported.
  have hcaught := (hfailed.step .read).step (.write (.present rfl rfl (.aside rfl)))
  have hreported := (hcaught.step .read).step (.write (.present rfl rfl (.aside rfl)))
  exact ⟨_, _, hreported.step (.write (.present rfl rfl (.finished _ Nat.one_pos)))⟩

theorem history_exactCount_failing :
    Store.atLoop.loops[0]? = some .starting ∧
      ∃ f m, LoopHistory 0 .atLoop [.accepted failing, .finished (some f)] m ∧
        ∃ l, m.store.loops[0]? = some l ∧ ExactCount [.accepted failing, .finished (some f)] l := by
  obtain ⟨f, m, hhistory⟩ := exists_history_failing
  obtain ⟨l, hl, hcount, -⟩ := history_exactCount rfl hhistory
  exact ⟨rfl, f, m, hhistory, l, hl, hcount⟩

end AlgebraicEffects
