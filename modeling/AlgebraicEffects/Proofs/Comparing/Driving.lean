import AlgebraicEffects.Proofs.Comparing.Layers
import AlgebraicEffects.Proofs.Leftover.Turns
import AlgebraicEffects.Proofs.Schedule.Runs

/-!
Flows that an agenda drives.

A flow of which the host is an agenda ends its turn where it waits, and is the only task of the agenda then:
so the agenda goes on with it at once, and its clock has moved by the delay (`exists_leads_driven`). A flow
that is driven therefore comes to what it comes to when it is taken up whenever it waits, and the clock shows
the time after all delays, in order (`Always.driven`, `Ultimately.driven`).
-/

set_option autoImplicit false

namespace AlgebraicEffects

open Action (Traced)
open Comparison (elsewhere passing)
open Suspension (suspendName nowName)

variable {V τ : Type} {see : Value → V} {L : Listener} {s t u : Store} {address : Nat} {now d : Number}
  {es fs : List (Event V)}

section Clocks

/-- For how long it is waited. -/
def Event.delay? : Event V → Option Number
  | .waited d => some d
  | _ => none

/-- The time after everything that was waited for, in order. -/
def Number.afterWaits (now : Number) (es : List (Event V)) : Number :=
  (es.filterMap Event.delay?).foldl Number.after now

theorem Number.afterWaits_told (now : Number) (h : ∀ e ∈ es, e.isTold = true) : now.afterWaits es = now := by
  have hnone : es.filterMap Event.delay? = [] := by
    refine List.filterMap_eq_nil_iff.2 fun e he => ?_
    cases e with
    | waited d => cases h _ he
    | _ => rfl
  rw [Number.afterWaits, hnone]
  rfl

theorem Number.afterWaits_append (now : Number) (es fs : List (Event V)) :
    now.afterWaits (es ++ fs) = (now.afterWaits es).afterWaits fs := by
  rw [Number.afterWaits, List.filterMap_append, List.foldl_append]
  rfl

/-- The agenda has nothing to do and no limit, and its clock shows a double. -/
structure Agenda.IsAtRest (a : Agenda) (now : Number) : Prop where
  queue : a.queue = .empty
  maxSteps : a.maxSteps = .nothing
  clock : a.currentTime.number? = some now
  mem : TimeDomain.doubles.Mem now

/-- There is such an agenda at the address. -/
def Store.AtRest (s : Store) (address : Nat) (now : Number) : Prop :=
  ∃ a, s.agendas[address]? = some a ∧ a.IsAtRest now

theorem Store.AtRest.kept (h : s.AtRest address now)
    (hkept : ∀ (i : Nat) (a : Agenda), s.agendas[i]? = some a → t.agendas[i]? = some a) :
    t.AtRest address now := by
  obtain ⟨a, ha, hrest⟩ := h
  exact ⟨a, hkept _ _ ha, hrest⟩

end Clocks

section Steps

variable {f : Store → Store} {k : Store → Action Value} {a b : Action Value} {n : Nat}

/-- Looking at the store first. -/
theorem Listener.Leads.reading (h : L.Leads see s (k s) n es t b) : L.Leads see s (.read k) n es t b where
  forth cs o v htr := by
    cases htr with
    | read htr => exact h.forth cs o v htr
  back ds o v htr := by
    obtain ⟨cs, hcs, hevents⟩ := h.back ds o v htr
    exact ⟨cs, .read hcs, hevents⟩

/-- Changing the store first. -/
theorem Listener.Leads.writing (h : L.Leads see (f s) a n es t b) : L.Leads see s (.write f a) n es t b where
  forth cs o v htr := by
    cases htr with
    | write htr => exact h.forth cs o v htr
  back ds o v htr := by
    obtain ⟨cs, hcs, hevents⟩ := h.back ds o v htr
    exact ⟨cs, .write hcs, hevents⟩

/-- The agenda at an address becomes another one, beside what is reported and what identities are given. -/
theorem Store.exists_elapses_set {a : Agenda} (ha : s.agendas[address]? = some a) (next : Agenda) (n : Nat)
    (hn : s.nextTag ≤ n) (records : List Record) :
    let t : Store := { s.tagsFrom n with agendas := s.agendas.setIfInBounds address next, records := records }
    s.Elapses t ∧ t.agendas[address]? = some next :=
  ⟨⟨hn, id, rfl⟩, Array.getElem?_setIfInBounds_self.trans (if_pos (Array.getElem?_eq_some_iff.1 ha).1)⟩

/-- The next task is taken, reported and called. -/
theorem exists_leads_step (L : Listener) (see : Value → V) {a next : Agenda} {task : Task}
    (ha : s.agendas[address]? = some a) (hlimit : a.maxSteps = .nothing)
    (hpop : a.pop? = some (task, next)) (k : Bool → Action Value) :
    ∃ u, s.Elapses u ∧ u.agendas[address]? = some next ∧ L.Leads see s ((Host.step address).bind k) 0 [] u
      ((Action.ask task.callback task.arguments).bind fun _ => k true) := by
  have hfree : a.atLimit = false := by
    unfold Agenda.atLimit
    rw [hlimit]
    rfl
  have hleads : ∃ records, L.Leads see s ((Host.step address).bind k) 0 []
      { s.tagsFrom s.nextTag with
        agendas := s.agendas.setIfInBounds address next, records := records }
      ((Action.ask task.callback task.arguments).bind fun _ => k true) := by
    apply Exists.intro
    unfold Host.step
    show L.Leads see s (.read _) 0 [] _ _
    refine .reading ?_
    simp only [ha]
    rw [Action.bind]
    simp only [hpop, hfree, Bool.false_eq_true, if_false]
    show L.Leads see s (.write _ (.read _)) 0 [] _ _
    refine .writing (.reading (.writing ?_))
    show L.Leads see _ (((Action.ask task.callback task.arguments).bind fun _ => .done true).bind k) 0 [] _ _
    rw [Action.bind_assoc]
    exact .refl _ _
  obtain ⟨records, hleads⟩ := hleads
  have hset := Store.exists_elapses_set ha next s.nextTag (Nat.le_refl _) records
  exact ⟨_, hset.1, hset.2, hleads⟩

end Steps

section Turns

/-- A program is evaluated under the handler against an agenda, nothing may be left of it, and the agenda is
run. -/
def Run.driven (address executed : Nat) (a : Action Value) : Action Value :=
  ((a.bind (Handler.evaluate (suspensionTable (.agenda address)) none)).bind Suspension.ensureHandled).bind
    fun _ => Host.drainingBody address executed

variable {tag own resumeTag executed : Nat} {delay : Value} {f : Function} {a : Action Value}

theorem Number.IsTimely.add (hd : d.IsTimely) (hnow : TimeDomain.doubles.Mem now) :
    now.add d = .ok (now.after d) ∧ TimeDomain.doubles.Mem (now.after d) := by
  obtain ⟨due, hdue⟩ := TimeDomain.doubles_add hnow hd.1
  have hafter : now.after d = due := by
    rw [Number.after, hdue]
    rfl
  rw [hafter]
  exact ⟨hdue, (TimeDomain.doubles.add hnow hd.1 hd.2 hdue).1⟩

/-- Where a program waits, the agenda gets a task that goes on with it. -/
theorem exists_traced_waiting (L : Listener) (see : Value → V) (tag own resumeTag : Nat) (f : Function)
    {agenda : Agenda} (ha : s.agendas[address]? = some agenda) (hrest : agenda.IsAtRest now)
    (hd : delay.number? = some d) (htimely : d.IsTimely) :
    ∃ cs timeTag t, L.events see cs = [.waited d] ∧ 0 < weight cs ∧ s.Elapses t ∧
      t.agendas[address]? = some (agenda.schedule (now.after d) timeTag
        (resumption address (.function resumeTag f)) []) ∧
      Traced (Handler.evaluate (suspensionTable (.agenda address)) none
        (awaiting tag own delay resumeTag f)) s cs (.ok (.leaf 0 .nothing)) t := by
  obtain ⟨timeTag, n, records, hn, hscheduled⟩ := traced_callLater (s := s)
    (resumption address (.function resumeTag f), []) hd htimely.2 ha hrest.clock
    (htimely.add hrest.mem).1
  have hset := Store.exists_elapses_set ha (agenda.schedule (now.after d) timeTag
    (resumption address (.function resumeTag f)) []) n hn records
  have hbody : Traced ((Value.function own (.waitStart delay)).apply
      (.of [resumption address (.function resumeTag f), .agenda address])) s [] _ _ := hscheduled
  have hsuspended := hbody.invoke.bind (k := fun _ => .done (Value.leaf 0 .nothing)) (.done _ _)
  have hbuilt : Traced (Replay.build (.arrowOf (.suspendOn (.agenda address))) (.tuple 0
      [.function own (.waitStart delay),
        .arrowOf (.under (suspensionTable (.agenda address)) none (.function resumeTag f))])
      [] (.tuple 0 [])) s _ _ _ := Replay.traced_build rfl rfl hsuspended
  refine ⟨_, timeTag, _, ?_, ?_, hset.1, hset.2, hbuilt⟩
  · rw [List.append_nil]
    refine (L.events_silent (f := .suspendOn (.agenda address)) rfl 0 _ _).trans ?_
    rw [L.events_mk]
    show (delay.number?.map Event.waited).toList ++ [] = _
    rw [hd]
    rfl
  · rw [weight_singleton]
    omega

/-- The task that goes on with a flow. -/
theorem leads_resumption (hf : f.goesOn = true) : L.Leads see s
    (Action.ask (resumption address (.function resumeTag f)) []) 3 [] s
    (((f.apply (.of [.nothing])).bind (Handler.evaluate (suspensionTable (.agenda address)) none)).bind
      Suspension.ensureHandled) := by
  have hcalled : L.Leads see s (Action.ask (.function resumeTag f) [.nothing]) 1 [] s
      (f.apply (.of [.nothing])) := .ask (Function.isSilent_of_goesOn hf)
  have hresumed := hcalled.bind (Handler.evaluate (suspensionTable (.agenda address)) none)
  have hunder : L.Leads see s (Action.ask (.arrowOf (.under (suspensionTable (.agenda address)) none
      (.function resumeTag f))) [.nothing]) 1 [] s _ := .ask rfl
  have hchecked : L.Leads see s (Action.ask (resumption address (.function resumeTag f)) []) 1 [] s _ :=
    .ask rfl
  exact hchecked.trans ((hunder.trans hresumed).bind Suspension.ensureHandled)

/-- The agenda goes on with the program that waits, and its clock has moved by the delay. -/
theorem exists_leads_driven (L : Listener) (see : Value → V) (tag own resumeTag executed : Nat)
    (hat : s.AtRest address now) (hd : delay.number? = some d) (htimely : d.IsTimely)
    (hf : f.goesOn = true) :
    ∃ u calls, 0 < calls ∧ s.Elapses u ∧ u.AtRest address (now.after d) ∧
      L.Leads see s (Run.driven address executed (.done (awaiting tag own delay resumeTag f))) calls
        [.waited d] u (Run.driven address (executed + 1) (f.apply (.of [.nothing]))) := by
  obtain ⟨agenda, ha, hrest⟩ := hat
  obtain ⟨cs, timeTag, t, hevents, hweight, ht, hagenda, htr⟩ :=
    exists_traced_waiting L see tag own resumeTag f ha hrest hd htimely
  -- The turn ends where the program waits, and the task that it leaves is the only one.
  have hturn : L.Leads see s (Run.driven address executed (.done (awaiting tag own delay resumeTag f)))
      (weight cs) (L.events see cs) t (Host.drainingBody address executed) :=
    (Listener.Leads.after (k := Suspension.ensureHandled) htr).bind fun _ => Host.drainingBody address executed
  obtain ⟨u, hu, hnext, hstep⟩ := exists_leads_step L see hagenda hrest.maxSteps
    (Agenda.pop?_schedule_of_empty hrest.queue ..)
    fun more => if more then Action.ask (.arrowOf (.draining address (executed + 1))) []
      else .done (.int executed)
  have hgoesOn : L.Leads see u (Action.ask (resumption address (.function resumeTag f)) [] >>= fun _ =>
      Action.ask (.arrowOf (.draining address (executed + 1))) []) _ _ u
      (Run.driven address (executed + 1) (f.apply (.of [.nothing]))) :=
    ((leads_resumption hf).bind _).trans (.next (fun _ _ => (Listener.Leads.ask rfl).weaken) _)
  have hwhole := hturn.trans (hstep.trans hgoesOn)
  rw [hevents] at hwhole
  exact ⟨u, _, by omega, ht.trans hu, ⟨_, hnext, rfl, hrest.maxSteps, number?_ofNumber _ _,
    (htimely.add hrest.mem).2⟩, hwhole⟩

end Turns

section Driven

variable {T : Venue V τ} {drawn : Nat → Prop} {hT : T.Lets drawn} {lists : Option (Nat × Nat)} {n : Nat}
  {a : Action Value} {executed : Nat} {cs : List Call} {o : Ending}

theorem Run.driven_eq (address executed : Nat) (a : Action Value) :
    Run.driven address executed a = a.bind fun p => Run.driven address executed (.done p) := by
  unfold Run.driven
  rw [Action.bind_assoc, Action.bind_assoc]
  exact congrArg _ (funext fun p => (Action.bind_assoc _ _ _).symm)

theorem Run.after_driven (e : Ending) :
    Action.after (fun p => Run.driven address executed (.done p)) e =
      Run.driven address executed (.ofExcept e) := by
  cases e <;> rfl

/-- What a program always comes to when it is taken up whenever it waits, it comes to when an agenda drives
it, whose clock then shows the time after all waits. -/
theorem Always.driven {R : Nat → List (Event V) → Store → Ending → Prop}
    (h : Always (passing hT L lists) n a s R) (hat : s.AtRest address now)
    (htr : Traced (Run.driven address executed a) s cs o t) (hle : weight cs ≤ n) :
    ∃ j said v e ds executed', R j said v e ∧ v.AtRest address (now.afterWaits said) ∧
      Traced (Run.driven address executed' (.ofExcept e)) v ds o t ∧
      L.events T.see cs = said ++ L.events T.see ds := by
  induction h generalizing now executed cs with
  | @intro n a s R keeps ends waits ih =>
    rw [Run.driven_eq] at htr
    obtain ⟨ds, e, u, ha⟩ := htr.exists_of_bind
    obtain ⟨es, rfl, hrest⟩ := traced_of_bind_after htr ha
    rw [Run.after_driven] at hrest
    rw [weight_append] at hle
    have hkept := keeps ds e u ha (by omega)
    have hstill : u.AtRest address now := hat.kept hkept.1
    have htold : now.afterWaits (L.events T.see ds) = now := Number.afterWaits_told now hkept.2.2
    by_cases hwaits : ∃ d f, (passing hT L lists).Awaits e d f
    · obtain ⟨d, f, hwaits⟩ := hwaits
      obtain ⟨-, tag, own, delay, resumeTag, rfl, hf, hd, htimely⟩ := id hwaits
      obtain ⟨z, calls, hcalls, hz, hlater, hleads⟩ :=
        exists_leads_driven L T.see tag own resumeTag executed hstill hd htimely hf
      obtain ⟨gs, hgs, hevents, hweight⟩ := hleads.forth es o t hrest
      obtain ⟨j, said, v, e, fs, executed', hR, hv, hend, hsaid⟩ :=
        ih ds _ u (weight gs) d f z ha (by omega) hwaits hz hlater hgs (Nat.le_refl _)
      refine ⟨j, _, v, e, fs, executed', hR, ?_, hend, ?_⟩
      · rw [Number.afterWaits_append]
        exact htold.symm ▸ hv
      · rw [L.events_append, hevents, hsaid, List.append_assoc]
        rfl
    · exact ⟨weight es, _, u, e, es, executed, ends ds e u _ ha hle fun d f h => hwaits ⟨d, f, h⟩,
        htold.symm ▸ hstill, hrest, L.events_append ds es⟩

/-- So does a program that ultimately comes to something. -/
theorem Ultimately.driven {Q : List (Event V) → Store → Ending → Prop}
    (h : Ultimately (passing hT L lists) a s Q) (hat : s.AtRest address now) (executed : Nat) :
    ∃ said v e executed', Q said v e ∧ v.AtRest address (now.afterWaits said) ∧
      ∀ ds o t, Traced (Run.driven address executed' (.ofExcept e)) v ds o t →
        ∃ cs, Traced (Run.driven address executed a) s cs o t ∧
          L.events T.see cs = said ++ L.events T.see ds := by
  induction h generalizing now executed with
  | @ends a s u cs e Q ha hkeeps _ hq =>
    have htold : now.afterWaits (L.events T.see cs) = now := Number.afterWaits_told now hkeeps.2.2
    refine ⟨_, u, e, executed, hq, htold.symm ▸ hat.kept hkeeps.1, fun ds o t hds => ⟨cs ++ ds, ?_,
      L.events_append cs ds⟩⟩
    rw [Run.driven_eq]
    rw [← Run.after_driven] at hds
    exact traced_bind_after ha hds
  | @waits a s u cs e d f Q ha hkeeps hwaits _ ih =>
    have htold : now.afterWaits (L.events T.see cs) = now := Number.afterWaits_told now hkeeps.2.2
    obtain ⟨-, tag, own, delay, resumeTag, rfl, hf, hd, htimely⟩ := id hwaits
    obtain ⟨z, calls, -, hz, hlater, hleads⟩ :=
      exists_leads_driven L T.see tag own resumeTag executed (hat.kept hkeeps.1) hd htimely hf
    obtain ⟨said, v, e, executed', hq, hv, hback⟩ := ih z hz hlater (executed + 1)
    refine ⟨_, v, e, executed', hq, ?_, fun ds o t hds => ?_⟩
    · rw [Number.afterWaits_append]
      exact htold.symm ▸ hv
    · obtain ⟨gs, hgs, hsaid⟩ := hback ds o t hds
      obtain ⟨es, hes, hevents⟩ := hleads.back gs o t hgs
      refine ⟨cs ++ es, ?_, ?_⟩
      · rw [Run.driven_eq]
        exact ha.bind hes
      · rw [L.events_append, hevents, hsaid, List.append_assoc]
        rfl

/-- A program that has come to a leaf has ended, and the agenda has nothing to do. -/
theorem traced_driven_leaf (hat : s.AtRest address now) (executed tag : Nat) (x : Value) :
    Traced (Run.driven address executed (.done (.leaf tag x))) s [] (.ok (.int executed)) s := by
  obtain ⟨agenda, ha, hrest⟩ := hat
  have hpop : agenda.pop? = none := by
    unfold Agenda.pop?
    rw [hrest.queue]
    rfl
  have hdrained : Traced (Host.drainingBody address executed) s [] (.ok (.int executed)) s :=
    (traced_step_none ha hpop).bind (.done _ _)
  show Traced (((Handler.evaluate _ none (.leaf tag x)).bind Suspension.ensureHandled).bind _) s [] _ s
  rw [Handler.evaluate_leaf (p := .leaf tag x) rfl]
  exact hdrained

/-- An operation is left that is no suspension and does not ask for the time. -/
theorem traced_driven_operation {name : String} {params : List Value} (hname : elsewhere name params)
    (address executed tag : Nat) (resume : Value) (s : Store) :
    Traced (Run.driven address executed (.done (.operation tag name params resume))) s []
      (.error (s.unhandled name params)) s := by
  have hlookup : (suspensionTable (.agenda address)).lookup name = none := by
    unfold suspensionTable
    rw [List.lookup_cons, beq_false_of_ne hname.1, List.lookup_cons, beq_false_of_ne hname.2]
    rfl
  show Traced (((Handler.evaluate _ none _).bind Suspension.ensureHandled).bind _) s [] _ s
  rw [Handler.evaluate_forwarded hlookup]
  exact (traced_unhandled name params s).bind_error

end Driven

end AlgebraicEffects
