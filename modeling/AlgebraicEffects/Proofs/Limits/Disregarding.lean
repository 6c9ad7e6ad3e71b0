import AlgebraicEffects.Proofs.Limits.Runs
import AlgebraicEffects.Proofs.Schedule.Turns

/-!
Programs that do not tell a limit.

Two runs of an action are followed side by side, one with the limit and one without it (`Heedless`). A
program that waits, forks and exits is ordinary if its continuations do not tell the limit and leave the
agendas alone (`Ordinary`). It may go on for ever, as long as every turn of it ends. Main statement: the
runs of ordinary programs disregard the limit (`limitDisregarded_of_ordinary`).
-/

set_option autoImplicit false

namespace AlgebraicEffects

open Action (Traced)
open Suspension (suspendName)

/-- With the limit and without it the action ends in the same way, makes the same calls, and leaves the
same store but for the limit. If it gives a value, then this holds of the value and the store. -/
def Heedless (address n : Nat) {α : Type} (a : Action α) (s : Store) (Q : α → Store → Prop) : Prop :=
  ∃ cs r t, Traced a s cs r t ∧ Traced a (s.limited address n) cs r (t.limited address n) ∧
    ∀ x, r = .ok x → Q x t

namespace Heedless

variable {address n : Nat} {α β : Type} {a : Action α} {s : Store} {Q R : α → Store → Prop}

theorem holds (h : Heedless address n a s Q) {cs : List Call} {x : α} {t : Store}
    (htr : Traced a s cs (.ok x) t) : Q x t := by
  obtain ⟨ds, r, u, hfree, -, hQ⟩ := h
  obtain ⟨-, rfl, rfl⟩ := hfree.unique htr
  exact hQ x rfl

theorem mono (h : Heedless address n a s Q) (himp : ∀ x t, Q x t → R x t) : Heedless address n a s R := by
  obtain ⟨cs, r, t, hfree, hlimited, hQ⟩ := h
  exact ⟨cs, r, t, hfree, hlimited, fun x hx => himp x t (hQ x hx)⟩

theorem done {x : α} (h : Q x s) : Heedless address n (.done x) s Q :=
  ⟨[], .ok x, s, .done x s, .done x _, fun _ hx => Except.ok.inj hx ▸ h⟩

theorem fail (f : Failure) : Heedless address n (.fail f : Action α) s Q :=
  ⟨[], .error f, s, .fail f s, .fail f _, nofun⟩

theorem write {change : Store → Store} (hchange : change (s.limited address n) = (change s).limited address n)
    (h : Heedless address n a (change s) Q) : Heedless address n (.write change a) s Q := by
  obtain ⟨cs, r, t, hfree, hlimited, hQ⟩ := h
  rw [← hchange] at hlimited
  exact ⟨cs, r, t, .write hfree, .write hlimited, hQ⟩

theorem bind {k : α → Action β} {Q : β → Store → Prop}
    (h : Heedless address n a s fun x t => Heedless address n (k x) t Q) : Heedless address n (a.bind k) s Q := by
  obtain ⟨cs, r, t, hfree, hlimited, hk⟩ := h
  cases r with
  | error f => exact ⟨cs, .error f, t, hfree.bind_error, hlimited.bind_error, nofun⟩
  | ok x =>
    obtain ⟨ds, q, u, hfree', hlimited', hQ⟩ := hk x rfl
    exact ⟨cs ++ ds, q, u, hfree.bind hfree', hlimited.bind hlimited', hQ⟩

/-- A call is heedless if what is called is. -/
theorem ask {f : Value} {vs : List Value} {Q : Value → Store → Prop}
    (h : Heedless address n (f.apply (.of vs)) s Q) : Heedless address n (Action.ask f vs) s Q := by
  obtain ⟨cs, r, t, hfree, hlimited, hQ⟩ := h
  exact ⟨_, r, t, .invoke hfree, .invoke hlimited, hQ⟩

/-- An implementation that gives a program is called once, and that is the program. -/
theorem build {implementation : Value} {params : List Value} {Q : Value → Store → Prop}
    (hscripted : implementation.isScripted = false)
    (h : Heedless address n (Action.ask implementation params) s fun v t => v.isProgram = true ∧ Q v t) :
    Heedless address n (Replay.build implementation (.tuple 0 params) [] (.tuple 0 [])) s Q := by
  rw [Replay.build_eq hscripted]
  refine .bind (h.mono fun v t hv => ?_)
  obtain ⟨hprogram, hQ⟩ := hv
  cases v with
  | leaf | operation => exact .done hQ
  | _ => cases hprogram

end Heedless

section Hosting

variable {address n dest : Nat} {s : Store}

theorem Store.identify_limited (s : Store) (address n : Nat) (v : Value) :
    ((s.limited address n).identify v).1 = (s.identify v).1 ∧
      ((s.limited address n).identify v).2 = (s.identify v).2.limited address n := by
  unfold identify
  split <;> exact ⟨rfl, rfl⟩

/-- Identities are given out heedless of the limit. -/
theorem heedless_identify (v : Value) {Q : Value → Store → Prop}
    (h : ∀ x t, t.agendas = s.agendas → Q x t) : Heedless address n (Action.identify v) s Q := by
  have hlimited := traced_identify (s.limited address n) v
  rw [(s.identify_limited address n v).1, (s.identify_limited address n v).2] at hlimited
  exact ⟨[], _, _, traced_identify s v, hlimited, fun x _ => h x _ (s.agendas_identify v)⟩

/-- A value is noted heedless of the limit. -/
theorem heedless_recordIn (x : Value) {Q : Value → Store → Prop}
    (h : ∀ y t, t.agendas = s.agendas → Q (.leaf 0 y) t) :
    Heedless address n (Action.ask (.arrowOf (.recordIn dest)) [x]) s Q := by
  refine .ask ?_
  show Heedless address n ((Action.identify x).bind fun y =>
    (Action.complete dest y).bind fun _ => .done (.leaf 0 y)) s Q
  exact .bind (heedless_identify x fun y t ht => .write rfl (.done (h y _ ht)))

/-- What the agenda has to do is what it had to do, and perhaps a new task. -/
def Store.Schedules (address : Nat) (callback : Value) (arguments : List Value) (s t : Store) : Prop :=
  ∀ b, t.agendas[address]? = some b → ∃ a, s.agendas[address]? = some a ∧
    ∀ task ∈ b.queue.toList, task ∈ a.queue.toList ∨ task.callback = callback ∧ task.arguments = arguments

/-- The store in which a task has been scheduled. -/
def Store.scheduling (s : Store) (address : Nat) (a : Agenda) (due : Number) (callback : Value)
    (arguments : List Value) : Store :=
  { (s.identify (.ofNumber 0 due)).2 with
    agendas := s.agendas.setIfInBounds address
      (a.schedule due (s.identify (.ofNumber 0 due)).1.numberTag callback arguments)
    records := ⟨"DEBUG", Host.logComponent, "scheduled task #" ++ toString a.sequenceCounter ++ " at t=" ++
      (Store.empty.show (s.identify (.ofNumber 0 due)).1).plain⟩ :: s.records }

variable {a : Agenda} {delay : Value} {d now due : Number}

theorem exists_identify_ofNumber (s : Store) (due : Number) :
    ∃ tag, (s.identify (.ofNumber 0 due)).1 = .ofNumber tag due := by
  cases due with
  | int m => exact ⟨0, rfl⟩
  | float x => exact ⟨s.nextTag, rfl⟩

theorem traced_scheduling (hd : delay.number? = some d) (hless : d.less (.int 0) = false)
    (ha : s.agendas[address]? = some a) (hnow : a.currentTime.number? = some now)
    (hdue : now.add d = .ok due) (callback : Value) (arguments : List Value) :
    Traced (Host.callLaterOnAgenda address delay callback arguments) s [] (.ok .nothing)
      (s.scheduling address a due callback arguments) := by
  have hadd : Value.add a.currentTime delay = .done (.ofNumber 0 due) := by
    rw [add_numbers hnow hd, hdue]
    rfl
  obtain ⟨tag, htag⟩ := exists_identify_ofNumber s due
  obtain ⟨m, -, hstore⟩ := s.identify_snd (.ofNumber 0 due)
  have hidentified := traced_identify s (.ofNumber 0 due)
  unfold Store.scheduling
  rw [htag, hstore] at hidentified ⊢
  refine (traced_checkDelay hd hless s).bind ((traced_agendaAt ha).bind ?_)
  rw [hadd]
  refine hidentified.bind ?_
  rw [number?_ofNumber]
  let scheduled : Store := { s.tagsFrom m with
    agendas := s.agendas.setIfInBounds address
      (a.schedule due (Value.ofNumber tag due).numberTag callback arguments) }
  rw [Store.empty.show_ofNumber scheduled]
  exact .write (.read (.write (.done _ _)))

theorem Store.scheduling_limited (s : Store) (address n : Nat) (a : Agenda) (due : Number)
    (callback : Value) (arguments : List Value) :
    (s.limited address n).scheduling address (a.limited n) due callback arguments =
      (s.scheduling address a due callback arguments).limited address n := by
  have hput := setAgenda_limited s.agendas address n
    (a.schedule due (s.identify (.ofNumber 0 due)).1.numberTag callback arguments)
  unfold scheduling
  rw [(s.identify_limited address n _).1, (s.identify_limited address n _).2]
  exact congrArg (fun agendas => ({ s.scheduling address a due callback arguments with agendas } : Store)) hput

/-- A number is added to any time or the sum fails. -/
theorem Value.add_decided (hd : delay.number? = some d) (now : Value) :
    (∃ m due, now.number? = some m ∧ m.add d = .ok due) ∨ ∃ f, Value.add now delay = .fail f := by
  cases hnow : now.number? with
  | none =>
    refine .inr ⟨.fault .badType, ?_⟩
    rw [Value.add_eq_onNumbers hd, Value.onNumbers, hnow]
    rfl
  | some m =>
    cases hdue : m.add d with
    | ok due => exact .inl ⟨m, due, rfl, hdue⟩
    | error fault =>
      refine .inr ?_
      rw [add_numbers hnow hd, hdue]
      cases fault with
      | divisionByZero => exact ⟨_, rfl⟩
      | overflow => exact ⟨_, rfl⟩

/-- An agenda is scheduled to heedless of the limit. -/
theorem heedless_callLater (hd : delay.number? = some d) (hless : d.less (.int 0) = false)
    (callback : Value) (arguments : List Value) (s : Store) :
    Heedless address n (Host.callLaterOnAgenda address delay callback arguments) s fun _ t =>
      s.Schedules address callback arguments t := by
  cases ha : s.agendas[address]? with
  | none =>
    have hmissing (t : Store) (ht : t.agendas[address]? = none) :
        Traced (Host.callLaterOnAgenda address delay callback arguments) t []
          (.error (.fault .badType)) t := by
      refine (traced_checkDelay hd hless t).bind (Traced.bind_error (.read ?_))
      rw [ht]
      exact .fail _ t
    refine ⟨[], _, s, hmissing s ha, hmissing _ ?_, nofun⟩
    rw [s.getElem?_limited, ha]
    rfl
  | some a =>
    have hlimited : (s.limited address n).agendas[address]? = some (a.limited n) := by
      rw [s.getElem?_limited, ha]
      rfl
    rcases Value.add_decided hd a.currentTime with ⟨now, due, hnow, hdue⟩ | ⟨f, hf⟩
    · have hscheduled := traced_scheduling hd hless hlimited hnow hdue callback arguments
      rw [Store.scheduling_limited] at hscheduled
      refine ⟨[], _, _, traced_scheduling hd hless ha hnow hdue callback arguments, hscheduled,
        fun _ _ b hb => ⟨a, ha, fun task htask => ?_⟩⟩
      obtain rfl := Option.some.inj ((getElem?_setAgenda address _ ha).1.symm.trans hb)
      rcases List.mem_cons.1 ((a.toList_queue_schedule _ _ _ _).mem_iff.1 htask) with rfl | hmem
      · exact .inr ⟨rfl, rfl⟩
      · exact .inl hmem
    · have hfails (t : Store) (b : Agenda) (hb : t.agendas[address]? = some b)
          (hadd : Value.add b.currentTime delay = .fail f) :
          Traced (Host.callLaterOnAgenda address delay callback arguments) t [] (.error f) t := by
        refine (traced_checkDelay hd hless t).bind ((traced_agendaAt hb).bind ?_)
        rw [hadd]
        exact .fail f t
      exact ⟨[], _, s, hfails s a ha hf, hfails _ _ hlimited hf, nofun⟩

end Hosting

/-- Resumed with the answer, the continuation goes on with one of the programs. It does not tell the
limit, and it leaves the agendas alone. -/
def Continuing (address n : Nat) (follows : Value → Prop) (resume answer : Value) : Prop :=
  ∀ s, Heedless address n (Action.ask resume [answer]) s fun v t => t.agendas = s.agendas ∧ follows v

/-- A program that ends with a value, exits, waits or forks, and whose continuations do not tell the
limit. After a wait, and in a flow that is forked off, it goes on with one of the programs `P`. The flow
that goes on at once is ordinary in turn, which rules out that a turn never ends. -/
inductive Ordinary (address n : Nat) (P : Value → Prop) : Value → Prop where
  | leaf {program : Value} {tag : Nat} {v : Value} :
      Program.lift program = .leaf tag v → Ordinary address n P program
  | exit (tag own : Nat) (resume : Value) :
      Ordinary address n P (.operation tag suspendName [.function own .exitStart] resume)
  | wait {tag own : Nat} {delay resume : Value} {d : Number} :
      delay.number? = some d → d.less (.int 0) = false → Continuing address n P resume .nothing →
      Ordinary address n P (.operation tag suspendName [.function own (.waitStart delay)] resume)
  | fork {tag own : Nat} {resume : Value} {follows : Value → Prop} :
      Continuing address n P resume (.bool true) → Continuing address n follows resume (.bool false) →
      (∀ v, follows v → Ordinary address n P v) →
      Ordinary address n P (.operation tag suspendName [.function own .forkStart] resume)

/-- The callback goes on with one of the programs, in a flow that notes its value at the end. -/
def Rouses (address n dest : Nat) (P : Value → Prop) (callback : Value) (arguments : List Value) : Prop :=
  ∃ resume answer, callback = wakeup address dest resume ∧
    (arguments = [answer] ∨ arguments = [] ∧ answer = .nothing) ∧ Continuing address n P resume answer

/-- All tasks of the agenda go on with one of the programs. -/
def Store.Awaits (address n dest : Nat) (P : Value → Prop) (s : Store) : Prop :=
  ∀ a, s.agendas[address]? = some a → ∀ task ∈ a.queue.toList,
    Rouses address n dest P task.callback task.arguments

section Turning

variable {address n dest : Nat} {P follows : Value → Prop} {I : Store → Prop} {s t : Store}
  {callback : Value} {arguments : List Value}

theorem Store.Awaits.aside (h : s.Awaits address n dest P) (ht : t.agendas = s.agendas) :
    t.Awaits address n dest P := by
  unfold Store.Awaits
  rw [ht]
  exact h

theorem Store.Awaits.schedules (h : s.Awaits address n dest P)
    (hnew : Rouses address n dest P callback arguments)
    (ht : s.Schedules address callback arguments t) : t.Awaits address n dest P := by
  intro b hb task htask
  obtain ⟨a, ha, htasks⟩ := ht b hb
  rcases htasks task htask with hmem | ⟨hcallback, harguments⟩
  · exact h a ha task hmem
  · rw [hcallback, harguments]
    exact hnew

/-- The flow has ended as a leaf, in such a store. -/
def ComesToRest (I : Store → Prop) (v : Value) (t : Store) : Prop := (∃ tag x, v = .leaf tag x) ∧ I t

/-- In its turn a flow comes to rest in such a store, with the limit and without it. -/
def TakesTurn (address n dest : Nat) (I : Store → Prop) (program : Value) (s : Store) : Prop :=
  Heedless address n (Program.graft program (.arrowOf (.recordIn dest))) s fun tracked t =>
    Heedless address n (Handler.evaluate (suspensionTable (.agenda address)) none tracked) t (ComesToRest I)

/-- The host calls a suspended flow back, and the flow takes a turn. -/
theorem heedless_wakeup {resume answer : Value}
    (harguments : arguments = [answer] ∨ arguments = [] ∧ answer = .nothing)
    (hresume : Continuing address n follows resume answer)
    (hturn : ∀ v t, t.agendas = s.agendas → follows v → TakesTurn address n dest I v t) :
    Heedless address n (Action.ask (wakeup address dest resume) arguments) s (ComesToRest I) := by
  have hresumed : Heedless address n (Action.ask (.arrowOf (.under (suspensionTable (.agenda address)) none
      (.arrowOf (.grafted resume (.arrowOf (.recordIn dest)))))) [answer]) s (ComesToRest I) := by
    refine .ask ?_
    rw [Handler.apply_under]
    refine .bind (.ask ?_)
    show Heedless address n ((Action.ask resume [answer]).bind fun v =>
      Program.graft v (.arrowOf (.recordIn dest))) s _
    exact .bind ((hresume s).mono fun v t h => hturn v t h.1 h.2)
  have hchecked : Heedless address n ((Action.ask (.arrowOf (.under (suspensionTable (.agenda address)) none
      (.arrowOf (.grafted resume (.arrowOf (.recordIn dest)))))) [answer]).bind
        Suspension.ensureHandled) s (ComesToRest I) := by
    refine .bind (hresumed.mono fun v t h => ?_)
    obtain ⟨⟨tag, x, rfl⟩, ht⟩ := h
    exact .done ⟨⟨tag, x, rfl⟩, ht⟩
  refine .ask ?_
  rcases harguments with rfl | ⟨rfl, rfl⟩ <;> exact hchecked

/-- A flow is suspended: the function that it is suspended with is called with its continuation and
the host, and the turn is over. -/
theorem takesTurn_suspend {tag own : Nat} {f : Function} {resume : Value}
    (h : Heedless address n (f.apply (.of [wakeup address dest resume, .agenda address])) s fun _ t => I t) :
    TakesTurn address n dest I (.operation tag suspendName [.function own f] resume) s := by
  refine .done ?_
  have hsuspended : Heedless address n ((Value.arrowOf (.suspendOn (.agenda address))).apply (.of
      [.function own f, .arrowOf (.under (suspensionTable (.agenda address)) none
        (.arrowOf (.grafted resume (.arrowOf (.recordIn dest)))))])) s
      fun v t => v.isProgram = true ∧ ComesToRest I v t := by
    show Heedless address n ((Action.ask (.function own f) [wakeup address dest resume, .agenda address]).bind
      fun _ => .done (Value.leaf 0 .nothing)) s _
    exact .bind (.ask (h.mono fun _ t ht => .done ⟨rfl, ⟨_, _, rfl⟩, ht⟩))
  rw [Handler.evaluate_handled rfl rfl]
  exact .build rfl (.ask hsuspended)

/-- An ordinary flow takes its turn heedless of the limit. -/
theorem Ordinary.takesTurn {program : Value} (h : Ordinary address n P program)
    (hs : s.Awaits address n dest P) : TakesTurn address n dest (Store.Awaits address n dest P) program s := by
  induction h generalizing s with
  | @leaf program tag v hlift =>
    unfold TakesTurn
    rw [Replay.graft_of_leaf hlift rfl]
    refine .bind (heedless_recordIn v fun y t ht => .done ?_)
    rw [Handler.evaluate_leaf rfl]
    exact .done ⟨⟨_, _, rfl⟩, hs.aside ht⟩
  | exit tag own resume => exact takesTurn_suspend (.done hs)
  | @wait tag own delay resume d hd hless hresume =>
    refine takesTurn_suspend ((heedless_callLater hd hless _ [] s).mono fun v t ht => hs.schedules ?_ ht)
    exact ⟨resume, .nothing, rfl, .inr ⟨rfl, rfl⟩, hresume⟩
  | @fork tag own resume follows htrue hfalse hfollows ih =>
    refine takesTurn_suspend ?_
    show Heedless address n ((Host.callLaterOnAgenda address (.float 0 0) (wakeup address dest resume)
      [.bool true]).bind fun _ => (Action.ask (wakeup address dest resume) [.bool false]).bind
        fun _ => .done Value.nothing) s fun _ t => t.Awaits address n dest P
    have hsoon : (Value.float 0 0).number? = some (.float 0) := rfl
    refine .bind ((heedless_callLater hsoon TimeDomain.doubles_soon.2 _ [.bool true] s).mono fun _ t ht => ?_)
    have hforked := hs.schedules ⟨resume, .bool true, rfl, .inl rfl, htrue⟩ ht
    -- The other flow goes on at once, inside the turn of this one.
    refine .bind ((heedless_wakeup (.inl rfl) hfalse fun v u hu hv => ih v hv (hforked.aside hu)).mono
      fun _ u hu => .done hu.2)

/-- A run begins with the turn of its first flow. -/
theorem TakesTurn.begins {program : Value} (h : TakesTurn address n dest I program s) :
    Heedless address n (Run.begin program (.tuple 0 []) (.agenda address) dest) s fun _ t => I t := by
  show Heedless address n ((Program.graft program (.arrowOf (.recordIn dest))).bind fun tracked =>
    (Handler.applyAll tracked [Suspension.handler (.agenda address)]).bind fun residual =>
      (Suspension.ensureHandled residual).bind fun _ => .done ()) s _
  refine .bind (h.mono fun tracked t hevaluated => ?_)
  rw [← Handler.evaluate_lift] at hevaluated
  rw [Handler.applyAll_cons, Action.bind_assoc]
  refine .bind (.ask (hevaluated.mono fun v u hv => ?_))
  obtain ⟨⟨tag, x, rfl⟩, hu⟩ := hv
  exact .done hu

/-- A task that goes on with an ordinary program is heedless of the limit. -/
theorem Store.Awaits.heedless_task (hs : s.Awaits address n dest P)
    (hP : ∀ v, P v → Ordinary address n P v) {a next : Agenda} {task : Task}
    (ha : s.agendas[address]? = some a) (hpop : a.pop? = some (task, next)) :
    Heedless address n (Action.ask task.callback task.arguments) (s.taking address task next)
      (ComesToRest (Store.Awaits address n dest P)) := by
  have hperm := Agenda.toList_queue_pop hpop
  have htaken : (s.taking address task next).Awaits address n dest P := by
    intro b hb other hother
    obtain rfl := Option.some.inj ((Store.getElem?_taking ha).symm.trans hb)
    exact hs a ha other (hperm.mem_iff.2 (List.mem_cons_of_mem _ hother))
  obtain ⟨resume, answer, hcallback, harguments, hresume⟩ :=
    hs a ha task (hperm.mem_iff.2 List.mem_cons_self)
  rw [hcallback]
  exact heedless_wakeup harguments hresume fun v t ht hv => (hP v hv).takesTurn (htaken.aside ht)

/-- The tasks that are executed leave only such tasks to do. -/
theorem Executes.awaits (hP : ∀ v, P v → Ordinary address n P v) {ts : List (Task × List Call)}
    {o : Except Failure Unit} {u : Store} (h : Executes address s ts o u)
    (hs : s.Awaits address n dest P) (ho : o = .ok ()) : u.Awaits address n dest P := by
  induction h with
  | nothing s => exact hs
  | raises => cases ho
  | goesOn ha hpop hlimit hcall _ ih => exact ih ((hs.heedless_task hP ha hpop).holds hcall).2 ho

end Turning

end AlgebraicEffects
