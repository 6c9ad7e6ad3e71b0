import AlgebraicEffects.Proofs.Flows.Delivery
import AlgebraicEffects.Proofs.Identities
import AlgebraicEffects.Proofs.Queue.Tending

/-!
Event loops and agendas take callbacks.

What waits on an event loop are its ready registrations and its timers, and on an agenda its tasks.
Both accept delays that are numbers and not negative. Main definitions: `Registrar.loop` and
`Registrar.agenda`.
-/

set_option autoImplicit false

namespace AlgebraicEffects

open Action (Traced)

/-- A number of time units that is not negative and has a nearest double. -/
def IsDelay (v : Value) : Prop :=
  ∃ tag d x, v = .ofNumber tag d ∧ d.less (.int 0) = false ∧ d.toFloat = .ok x

theorem traced_less_zero {v : Value} {d : Number} (h : v.number? = some d) (s : Store) :
    Traced (Value.less v (.int 0)) s [] (.ok (d.less (.int 0))) s := by
  cases v with
  | int | bool | float =>
    cases h
    exact .read (.read (.done _ _))
  | _ => cases h

theorem traced_checkDelay {v : Value} {d : Number} (h : v.number? = some d)
    (hless : d.less (.int 0) = false) (s : Store) :
    Traced (Host.checkDelay v) s [] (.ok ()) s := by
  have hchecked := traced_less_zero h s
  rw [hless] at hchecked
  exact hchecked.bind (.done _ _)

theorem traced_wait {v : Value} {d : Number} (h : v.number? = some d)
    (hless : d.less (.int 0) = false) (s : Store) :
    Traced (Suspension.wait v) s []
      (.ok (.bare Suspension.suspendName [.arrowOf (.waitStart v)])) s := by
  have hchecked := traced_less_zero h s
  rw [hless] at hchecked
  exact hchecked.bind (.done _ _)

/-- Delays are numbers that are not negative. -/
theorem IsDelay.number {v : Value} (h : IsDelay v) :
    ∃ d x, v.number? = some d ∧ d.less (.int 0) = false ∧ d.toFloat = .ok x := by
  obtain ⟨tag, d, x, rfl, hless, hx⟩ := h
  exact ⟨d, x, number?_ofNumber tag d, hless, hx⟩

theorem add_numbers {u v : Value} {m n : Number} (hm : u.number? = some m) (hn : v.number? = some n) :
    Value.add u v = Value.numeric (m.add n) := by
  rw [Value.add_eq_onNumbers hn]
  unfold Value.onNumbers
  rw [hm, hn]

section Loops

def Registration.request (r : Registration) : Callback := (r.callback, r.arguments)

/-- What has been registered with a loop and does not run yet. -/
def EventLoop.waiting (l : EventLoop) : List Callback :=
  (l.ready ++ l.timers.toList.map Timer.registration).map Registration.request

/-- The loop at an address takes callbacks. -/
def Store.loopIsOpen (address : Nat) (s : Store) : Prop :=
  ∃ l, s.loops[address]? = some l ∧ l.isClosed = false

def Store.waitingOnLoop (address : Nat) (s : Store) : List Callback :=
  (s.loops[address]?).elim [] EventLoop.waiting

variable {address : Nat} {s : Store} {l : EventLoop}

theorem traced_loopAt (hl : s.loops[address]? = some l) :
    Traced (Host.loopAt address) s [] (.ok l) s := by
  refine .read ?_
  simp only [hl]
  exact .done _ _

/-- A loop that is open takes what is registered. -/
theorem traced_register (change : EventLoop → EventLoop) (hopen : l.isClosed = false) :
    Traced (Host.register address l.isClosed change) s [] (.ok .nothing)
      { s with loops := s.loops.modify address change } := by
  rw [hopen]
  exact .write (.done _ _)

theorem EventLoop.waiting_callSoon (l : EventLoop) (c : Callback) :
    (l.callSoon ⟨c.1, c.2⟩).waiting.Perm (l.waiting ++ [c]) := by
  unfold waiting callSoon
  simp only [List.map_append, List.append_assoc]
  exact List.perm_append_comm.append_left _

theorem EventLoop.waiting_callAt (l : EventLoop) (due : Float) (c : Callback) :
    (l.callAt due ⟨c.1, c.2⟩).waiting.Perm (l.waiting ++ [c]) := by
  have htimers := ((l.timers.toList_push Timer.before ⟨due, l.timerCounter, ⟨c.1, c.2⟩⟩).map
    Timer.registration).map Registration.request
  unfold waiting callAt
  simp only [List.map_append, List.append_assoc]
  exact (htimers.trans (List.perm_append_singleton _ _).symm).append_left _

/-- A store with one event loop, on which nothing is registered. -/
def Store.atLoop : Store := { Store.empty with loops := #[.starting] }

/-- What is done to a loop that takes callbacks leaves it open, and waits there. -/
theorem exists_registered (change : EventLoop → EventLoop) {c : Callback}
    (hl : s.loops[address]? = some l) (hopen : (change l).isClosed = false)
    (hperm : (change l).waiting.Perm (l.waiting ++ [c])) :
    let t := { s with loops := s.loops.modify address change }
    t.loopIsOpen address ∧ t.writtenLists = s.writtenLists ∧ s.nextTag ≤ t.nextTag ∧
      (t.waitingOnLoop address).Perm (s.waitingOnLoop address ++ [c]) := by
  have hnow : (s.loops.modify address change)[address]? = some (change l) := by
    simp [Array.getElem?_modify, hl]
  refine ⟨⟨change l, hnow, hopen⟩, rfl, Nat.le_refl _, ?_⟩
  unfold Store.waitingOnLoop
  simp only [hnow, hl]
  exact hperm

theorem exists_add_clock {v : Value} (h : IsDelay v) (now : Float) :
    ∃ due, Value.add (.float 0 now) v = .done (.float 0 due) := by
  obtain ⟨d, x, hd, -, hx⟩ := h.number
  refine ⟨now + x, (add_numbers (number?_ofNumber 0 (.float now)) hd).trans ?_⟩
  rw [Number.float_add hx]
  rfl

/-- An event loop takes callbacks as long as it is open. -/
def Registrar.loop (address : Nat) (shared : Nat → Prop) : Registrar (.loopHost address) where
  Open := Store.loopIsOpen address
  waiting := Store.waitingOnLoop address
  Accepts := IsDelay
  Times v := ∃ x, v = .float 0 x
  Shared := shared
  aside {s t} _ h := by
    unfold Store.loopIsOpen Store.waitingOnLoop
    rw [h]
    exact ⟨id, rfl⟩
  time {s} hopen := by
    obtain ⟨l, hl, -⟩ := hopen
    refine ⟨.float 0 l.now, ⟨l.now, rfl⟩, .read ?_⟩
    simp only [hl]
    exact .done _ _
  callSoon {s} c hopen := by
    obtain ⟨l, hl, hopen⟩ := hopen
    exact ⟨_, (traced_loopAt hl).bind (traced_register _ hopen),
      exists_registered (·.callSoon ⟨c.1, c.2⟩) hl hopen (l.waiting_callSoon c)⟩
  callLater {s delay} c hdelay hopen := by
    obtain ⟨l, hl, hopen⟩ := hopen
    obtain ⟨due, hdue⟩ := exists_add_clock hdelay l.now
    obtain ⟨d, x, hd, hless, -⟩ := hdelay.number
    refine ⟨_, (traced_checkDelay hd hless s).bind ((traced_loopAt hl).bind ?_),
      exists_registered (·.callAt due ⟨c.1, c.2⟩) hl hopen (l.waiting_callAt due c)⟩
    rw [hdue]
    exact traced_register _ hopen
  wait s hdelay := by
    obtain ⟨d, x, hd, hless, -⟩ := hdelay.number
    exact traced_wait hd hless s

end Loops

section Agendas

def Task.request (t : Task) : Callback := (t.callback, t.arguments)

/-- There is an agenda at the address, and its clock shows a number that has a nearest double. -/
def Store.agendaIsOpen (address : Nat) (s : Store) : Prop :=
  ∃ a tag d x, s.agendas[address]? = some a ∧ a.currentTime = .ofNumber tag d ∧ d.toFloat = .ok x

def Store.waitingOnAgenda (address : Nat) (s : Store) : List Callback :=
  (s.agendas[address]?).elim [] fun a => a.queue.toList.map Task.request

variable {address : Nat} {s : Store}

theorem Number.exists_add {m n : Number} {x y : Float} (hm : m.toFloat = .ok x)
    (hn : n.toFloat = .ok y) : ∃ due, m.add n = .ok due := by
  cases m with
  | float x' => exact ⟨_, Number.float_add hn x'⟩
  | int i =>
    cases n with
    | int j => exact ⟨_, rfl⟩
    | float y' =>
      refine ⟨.float (x + y'), ?_⟩
      have hcombined : (Number.int i).add (.float y') =
          (Number.int i).toFloat >>= fun x => .ok (.float (x + y')) := rfl
      rw [hcombined, hm]
      rfl

theorem number?_identify (s : Store) (due : Number) :
    (s.identify (.ofNumber 0 due)).1.number? = some due := by
  cases due <;> rfl

theorem traced_agendaAt {a : Agenda} (ha : s.agendas[address]? = some a) :
    Traced (Host.agendaAt address) s [] (.ok a) s := by
  refine .read ?_
  simp only [ha]
  exact .done _ _

/-- The agenda gets one more task, due after the delay. Beside it identities are given out, and what
was done is reported. -/
theorem traced_callLater {delay : Value} {d now due : Number} {a : Agenda} (c : Callback)
    (hd : delay.number? = some d) (hless : d.less (.int 0) = false)
    (ha : s.agendas[address]? = some a) (hnow : a.currentTime.number? = some now)
    (hdue : now.add d = .ok due) :
    ∃ timeTag n records, s.nextTag ≤ n ∧
      Traced (Host.callLaterOnAgenda address delay c.1 c.2) s [] (.ok .nothing)
        { s.tagsFrom n with
          agendas := s.agendas.setIfInBounds address (a.schedule due timeTag c.1 c.2)
          records := records } := by
  have hadd : Value.add a.currentTime delay = .done (.ofNumber 0 due) := by
    rw [add_numbers hnow hd, hdue]
    rfl
  obtain ⟨n, hn, hstore⟩ := s.identify_snd (.ofNumber 0 due)
  have hidentified := traced_identify s (.ofNumber 0 due)
  rw [hstore] at hidentified
  have hscheduled : ∃ records, Traced (Host.callLaterOnAgenda address delay c.1 c.2) s []
      (.ok .nothing) { s.tagsFrom n with
        agendas := s.agendas.setIfInBounds address
          (a.schedule due (s.identify (.ofNumber 0 due)).1.numberTag c.1 c.2)
        records := records } := by
    apply Exists.intro
    refine (traced_checkDelay hd hless s).bind ((traced_agendaAt ha).bind ?_)
    rw [hadd]
    refine hidentified.bind ?_
    rw [number?_identify]
    exact .write (.read (.write (.done _ _)))
  obtain ⟨records, hscheduled⟩ := hscheduled
  exact ⟨_, n, records, hn, hscheduled⟩

/-- A task is scheduled after a delay. -/
theorem exists_scheduled {delay : Value} (c : Callback) (hdelay : IsDelay delay)
    (hopen : s.agendaIsOpen address) :
    ∃ t, Traced (Host.callLaterOnAgenda address delay c.1 c.2) s [] (.ok .nothing) t ∧
      t.agendaIsOpen address ∧ t.writtenLists = s.writtenLists ∧ s.nextTag ≤ t.nextTag ∧
      (t.waitingOnAgenda address).Perm (s.waitingOnAgenda address ++ [c]) := by
  obtain ⟨a, tag, now, x, ha, hnow, hx⟩ := hopen
  obtain ⟨d, y, hd, hless, hy⟩ := hdelay.number
  obtain ⟨due, hdue⟩ := Number.exists_add hx hy
  obtain ⟨timeTag, n, records, hn, hscheduled⟩ :=
    traced_callLater c hd hless ha (hnow ▸ number?_ofNumber tag now) hdue
  have hset (next : Agenda) : (s.agendas.setIfInBounds address next)[address]? = some next := by
    rw [Array.getElem?_setIfInBounds_self, if_pos (Array.getElem?_eq_some_iff.1 ha).1]
  refine ⟨_, hscheduled, ⟨_, tag, now, x, hset _, hnow, hx⟩, rfl, hn, ?_⟩
  unfold Store.waitingOnAgenda
  simp only [hset, ha]
  exact (((a.toList_queue_schedule due _ c.1 c.2).map Task.request).trans
    (List.perm_append_singleton c _).symm)

/-- An agenda takes callbacks. As soon as possible means after no time at all, which is no negative
number of time units. -/
def Registrar.agenda (address : Nat) (shared : Nat → Prop)
    (hzero : (Number.float 0).less (.int 0) = false) : Registrar (.agenda address) where
  Open := Store.agendaIsOpen address
  waiting := Store.waitingOnAgenda address
  Accepts := IsDelay
  Times v := ∃ tag d, v = .ofNumber tag d
  Shared := shared
  aside {s t} h _ := by
    unfold Store.agendaIsOpen Store.waitingOnAgenda
    rw [h]
    exact ⟨id, rfl⟩
  time {s} hopen := by
    obtain ⟨a, tag, d, x, ha, hnow, -⟩ := hopen
    exact ⟨a.currentTime, ⟨tag, d, hnow⟩, (traced_agendaAt ha).bind (.done _ _)⟩
  callSoon c hopen := exists_scheduled c ⟨0, .float 0, 0, rfl, hzero, rfl⟩ hopen
  callLater c hdelay hopen := exists_scheduled c hdelay hopen
  wait s hdelay := by
    obtain ⟨d, x, hd, hless, -⟩ := hdelay.number
    exact traced_wait hd hless s

end Agendas

end AlgebraicEffects
