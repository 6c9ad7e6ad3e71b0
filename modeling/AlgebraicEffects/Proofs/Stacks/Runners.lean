import AlgebraicEffects.Proofs.Leftover.Turns
import AlgebraicEffects.Proofs.Runners.Idle
import AlgebraicEffects.Proofs.Schedule.Completed
import AlgebraicEffects.Proofs.Stacks.Noting
import AlgebraicEffects.Proofs.Stacks.Order

/-!
Runners of programs that never suspend.

Evaluated directly, on a new agenda or on a loop of its own, a program under handlers that resume last
comes to what its machine comes to under their reactions, and this is what the outcome tells
(`runCaught_reports`, `runScheduled_reports`, `runOnLoop_reports`). So the runners agree (`runners_agree`),
as long as the program and its handlers do not depend on what a runner does for itself: a program that
runs a loop of its own does, since only one loop can make turns at a time (`runners_differ`).
-/

set_option autoImplicit false

namespace AlgebraicEffects

open Action (Traced)
open Suspension (suspendName nowName)

variable {V τ σ : Type} {T : Venue V τ} {L : Listener} {K : Conduct V τ σ} {r : Reactions V τ}

section Applying

variable {occurs : String → Prop} {handlers : List Value}

/-- One more handler that leaves everything alone. -/
theorem Stacked.concat {tag : Nat} {table : Handler.Table} (h : Stacked T L occurs handlers r)
    (htable : Handled T L occurs table fun _ => none) :
    Stacked T L occurs (handlers ++ [.handler tag table none]) r := by
  induction h with
  | nil =>
    have hone : Stacked T L occurs [.handler tag table none] _ := .cons htable .nil
    exact hone
  | cons hfirst _ ih => exact .cons hfirst ih

/-- The handlers are applied to what a program has come to, or a failure is passed on. -/
theorem ends_after_applyAll (hstack : Stacked T L occurs handlers r)
    (hoccurs : ∀ name, K.Occurs name → occurs name) {w : T.World} {e : Ending} {q : σ} {x : τ}
    (hp : Conducts T L K w e q) (hx : T.Holds w x) :
    EndsAs T L (Action.after (fun p => Handler.applyAll p handlers) e) w (K.Plays r q x)
      (Conducts T L (K.under r)) := by
  cases e with
  | ok p => exact ends_applyAll hstack hoccurs hp hx
  | error f =>
    have hfails : Conducts T L (K.under r) w (.error f) (.rests q) := .of_looks hp.looks nofun
    refine (EndsAs.ended hx hfails).rests fun name ps hname => ?_
    have hlooks := hp.looks
    rw [hname] at hlooks
    cases hlooks

end Applying

section Telling

/-- What the end of an evaluation tells: an operation that is left is a failure of its own. -/
def Node.told (left : String → List V → V) : Node V → Except V V
  | .leaf v => .ok v
  | .operation name ps => .error (left name ps)
  | .failure f => .error f

/-- Outcomes that tell this: a value, which is the only one that was reached, or a failure and none. -/
inductive Reported (see : Value → V) : Except V V → Value → Prop where
  | value {tag inner outer : Nat} (v : Value) :
      Reported see (.ok (see v)) (.outcome tag (.ok inner v) (.tuple outer [v]))
  | failure {tag inner outer : Nat} (f : Value) :
      Reported see (.error (see f)) (.outcome tag (.err inner f) (.tuple outer []))

/-- An outcome tells one thing. -/
theorem Reported.unique {see : Value → V} {e e' : Except V V} {outcome : Value}
    (h : Reported see e outcome) (g : Reported see e' outcome) : e = e' := by
  cases h with
  | value => cases g; rfl
  | failure => cases g; rfl

/-- What is seen of how an action ends. -/
def seenEnd (see : Value → V) : Ending → Except V V
  | .ok v => .ok (see v)
  | .error f => .error (see (.failure f))

/-- In no world is more seen of the failure of an operation that is left than of the operation. -/
def Venue.Tells (T : Venue V τ) (left : String → List V → V) : Prop :=
  ∀ w name params,
    T.see (.failure ((T.store w).unhandled name params)) = left name (params.map T.see)

/-- What a run makes of a program that was evaluated: its value, or a failure if an operation is left. -/
def Run.resulting : Value → Action Value
  | .operation _ name params _ => do
    Run.debug ("unhandled effect " ++ Text.quoted name ++ " reached the top level")
    .fail (← Action.unhandled (.text name) (.tuple 0 params))
  | .leaf _ v => return v
  | v => return v

theorem Run.run_eq (p handlers : Value) :
    Run.run p handlers .nothing = (Handler.applyEach p handlers).bind Run.resulting := rfl

theorem Store.sight_logged (s : Store) (record : Record) (depth : Nat) (path : List Place) :
    (s.logged record).sight depth path = s.sight depth path := by
  induction depth generalizing path with
  | zero => rfl
  | succ depth ih =>
    simp only [Store.sight, ih]
    rfl

theorem Store.unhandled_logged (s : Store) (record : Record) (name : String) (params : List Value) :
    (s.logged record).unhandled name params = s.unhandled name params := by
  have hshow (v : Value) : (s.logged record).show v = s.show v :=
    congrArg v.seen (s.sight_logged record _ [])
  simp only [Store.unhandled, Store.written, hshow]

variable {left : String → List V → V} {o : Ending} {n : Node V}

theorem traced_resulting (hleft : T.Tells left) (w : T.World) (ho : Looks T.see o n) :
    ∃ e t, Traced (Action.after Run.resulting o) (T.store w) [] e t ∧ seenEnd T.see e = n.told left := by
  cases ho with
  | @leaf v x tag hv =>
    refine ⟨.ok x, T.store w, ?_, rfl⟩
    show Traced (Run.resulting v) _ _ _ _
    by_cases hprogram : v.isProgram = true
    · rw [show v = .leaf tag x from (if_pos hprogram).symm.trans hv]
      exact .done x _
    · obtain ⟨-, rfl⟩ := Value.leaf.inj ((if_neg hprogram).symm.trans hv)
      cases v with
      | leaf | operation => exact absurd rfl hprogram
      | _ => exact .done _ _
  | @operation tag name params resume =>
    refine ⟨_, _, .write (traced_unhandled name params ((T.store w).logged _)), ?_⟩
    rw [Store.unhandled_logged]
    exact congrArg Except.error (hleft w name params)
  | @failure f => exact ⟨.error f, T.store w, .fail f _, rfl⟩

/-- Nothing is left, or it is a failure. -/
theorem traced_ensureHandled (hleft : T.Tells left) (w : T.World) (ho : Looks T.see o n) :
    ∃ e, Traced (Action.after Suspension.ensureHandled o) (T.store w) [] e (T.store w) ∧
      match n.told left with
      | .ok _ => ∃ p, e = .ok p
      | .error g => ∃ f, e = .error f ∧ T.see (.failure f) = g := by
  cases ho with
  | @leaf v x tag hv =>
    refine ⟨.ok (.leaf tag x), ?_, _, rfl⟩
    show Traced (Suspension.ensureHandled v) _ _ _ _
    unfold Suspension.ensureHandled
    rw [hv]
    exact .done _ _
  | @operation tag name params resume =>
    exact ⟨_, traced_unhandled name params _, _, rfl, hleft w name params⟩
  | @failure f => exact ⟨_, .fail f _, f, rfl, rfl⟩

variable {see : Value → V}

/-- A failure before any value was reached. -/
theorem exists_traced_failed (hsee : ∀ s v, see (Store.identify s v).1 = see v) (f : Failure)
    {vs : List Value} (hvs : vs.map see = []) (s : Store) :
    ∃ outcome t, Traced (Run.failed f vs) s [] (.ok outcome) t ∧
      Reported see (.error (see (.failure f))) outcome ∧ t.loops = s.loops := by
  obtain rfl := List.map_eq_nil_iff.1 hvs
  refine ⟨_, _, (traced_identify s (.failure f)).bind (.done _ _), ?_, s.loops_identify _⟩
  rw [← hsee s]
  exact .failure _

theorem Settled.reported {vs : List Value} {result : Value} {v : V} (h : Settled vs result)
    (hvs : vs.map see = [v]) : Reported see (.ok v) (.outcome 0 result (.tuple 0 vs)) := by
  cases h with
  | none => cases hvs
  | first x vs =>
    obtain ⟨rfl, hnil⟩ := List.cons.inj hvs
    obtain rfl := List.map_eq_nil_iff.1 hnil
    exact .value x

end Telling

section Directly

variable {left : String → List V → V} {w : T.World} {p : Value} {stack : List Value} {q : σ} {x : τ}
  {d : Desk}

/-- The outcome of a direct evaluation tells what the machine comes to. -/
theorem runCaught_reports (hT : T.Allows d) (hleft : T.Tells left)
    (hstack : Stacked (T.hosting ⟨none, none, none⟩) L K.Occurs stack r.spared)
    (hp : Conducts (T.hosting ⟨none, none, none⟩) L K.spared w (.ok p) q) (hx : T.Holds w x) (tag : Nat) :
    (∀ cs o t, Traced (Run.runCaught p (.tuple tag stack) .nothing) (T.store w) cs o t →
      ∃ es v y, K.Plays r q x es v y) ∧
    ∀ es v y, K.Plays r q x es v y → ∃ cs outcome t,
      Traced (Run.runCaught p (.tuple tag stack) .nothing) (T.store w) cs (.ok outcome) t ∧
      L.events T.see cs = es ∧ Reported T.see (((K.under r).node v).told left) outcome := by
  have hholds : (T.hosting ⟨none, none, none⟩).Holds w (x, []) := ⟨hx, nofun, nofun, nofun⟩
  have hends := ends_applyAll hstack (fun _ h => h) hp hholds
  have hbeside {es : List (Event V)} {v : Verdict V σ} {y : τ} {vs : List V} :
      K.spared.Plays r.spared q (x, []) es v (y, vs) ↔ K.Plays r q x es v y ∧ vs = [] :=
    plays_beside_iff (f := fun _ b => b) fun _ _ _ => rfl
  have hrun : Run.run p (.tuple tag stack) .nothing =
      (Handler.applyAll p stack).bind Run.resulting := by
    rw [Run.run_eq, applyEach_tuple]
  constructor
  · intro cs o t htr
    obtain ⟨ds, e, u, hattempt⟩ := Traced.exists_of_bind htr
    obtain ⟨e, -, hrunning⟩ := hattempt.of_attempt
    rw [hrun] at hrunning
    obtain ⟨ds, e, u, happlied⟩ := hrunning.exists_of_bind
    obtain ⟨es, v, ⟨y, vs⟩, hplays⟩ := hends.ends _ _ _ happlied
    exact ⟨es, v, y, (hbeside.1 hplays).1⟩
  · intro es v y hplays
    obtain ⟨cs, o, z, htr, -, hevents, -, ho⟩ := hends.as es v (y, []) (hbeside.2 ⟨hplays, rfl⟩)
    obtain ⟨e, t, hresulting, he⟩ := traced_resulting hleft z ho.looks
    have hrunning := traced_bind_after htr hresulting
    rw [← hrun, List.append_nil] at hrunning
    rw [Conduct.spared, Conduct.node_spared] at he
    rw [← he]
    cases e with
    | ok value =>
      refine ⟨cs ++ [], _, _, hrunning.attempt.bind ((traced_identify t value).bind (.done _ _)),
        (congrArg _ (List.append_nil cs)).trans hevents, ?_⟩
      rw [seenEnd, ← hT.see_identify t value]
      exact .value _
    | error f =>
      obtain ⟨outcome, u, hfailed, hreported, -⟩ := exists_traced_failed hT.see_identify f List.map_nil
        (t.logged ⟨"DEBUG", Run.logComponent, "sync_run failed: " ++ (t.show (.failure f)).quoted⟩)
      exact ⟨cs ++ [], outcome, u, hrunning.attempt.bind (.read (.write hfailed)),
        (congrArg _ (List.append_nil cs)).trans hevents, hreported⟩

end Directly

section Hosted

variable {left : String → List V → V} {w : T.World} {p : Value} {stack : List Value} {q : σ} {x : τ}
  {d : Desk} {dest : Nat}

/-- The names of operations that suspend a flow, or ask the host for its time. -/
def Conduct.Suspends (K : Conduct V τ σ) : Prop := K.Occurs suspendName ∨ K.Occurs nowName

/-- A program that does not suspend is left alone by the handler against a host. -/
theorem handled_suspension {ρ : Type} {U : Venue V ρ} (h : ¬ K.Suspends) (host : Value) :
    Handled U L K.Occurs [(suspendName, .arrowOf (.suspendOn host)), (nowName, .arrowOf (.nowOf host))]
      fun _ => none := by
  intro name hname
  have hsuspend : name ≠ suspendName := by
    rintro rfl
    exact h (.inl hname)
  have hnow : name ≠ nowName := by
    rintro rfl
    exact h (.inr hname)
  refine .inl ⟨?_, rfl⟩
  rw [List.lookup_cons, beq_false_of_ne hsuspend, List.lookup_cons, beq_false_of_ne hnow]
  rfl

/-- The first flow of a run: the noting is grafted onto the program, which is evaluated under all
handlers. -/
def tracked (p : Value) (stack : List Value) (host : Value) (dest : Nat) : Action Value :=
  (Program.graft p (.arrowOf (.recordIn dest))).bind fun p =>
    Handler.applyAll p (stack ++ [Suspension.handler host])

theorem begin_tuple (p : Value) (tag : Nat) (stack : List Value) (host : Value) (dest : Nat) :
    Run.begin p (.tuple tag stack) host dest =
      ((tracked p stack host dest).bind Suspension.ensureHandled).bind fun _ => .done () := by
  unfold tracked
  rw [Action.bind_assoc, Action.bind_assoc]
  congr 1

theorem ends_tracked (hT : T.Allows d) (hdest : dest ∈ d.completed) (hK : ¬ K.Suspends)
    (hstack : Stacked (T.hosting d) L K.Occurs stack r.spared)
    (hp : Conducts (T.hosting d) L K.spared w (.ok p) q) (hx : (T.hosting d).Holds w (x, []))
    (host : Value) :
    EndsAs (T.hosting d) L (tracked p stack host dest) w
      (fun es v y => K.Plays r q x es v y.1 ∧ y.2 = ((K.under r).node v).note [])
      (Conducts (T.hosting d) L ((K.beside Node.note).under r.spared)) := by
  have hboth : Stacked (T.hosting d) L K.Occurs (stack ++ [Suspension.handler host]) r.spared := by
    show Stacked _ L _ (stack ++ [.handler 0 [(suspendName, .arrowOf (.suspendOn host)),
      (nowName, .arrowOf (.nowOf host))] none]) _
    exact hstack.concat (handled_suspension hK host)
  have hends := EndsAs.bind (ends_note hT hdest hp hx)
    (k := fun p => Handler.applyAll p (stack ++ [Suspension.handler host]))
    fun _ _ _ _ _ _ _ hy ho => ends_after_applyAll hboth (fun _ h => h) (ho.conducts hT hdest) hy
  refine hends.image (f := id) (fun es v y => ?_) fun _ _ _ h => h
  have hbeside : (K.beside Node.note).Plays r.spared q (x, (K.node q).note []) es v y ↔
      K.Plays r q x es v y.1 ∧ y.2 = ((K.under r).node v).note [] :=
    plays_beside_iff fun _ hn vs => Node.note_eq hn vs
  constructor
  · intro hplays
    exact ⟨v, ⟨[], q, _, es, ⟨rfl, rfl, rfl⟩, hbeside.2 hplays, rfl⟩, rfl⟩
  · rintro ⟨_, ⟨_, _, _, gs, ⟨rfl, rfl, rfl⟩, hplays, rfl⟩, rfl⟩
    exact hbeside.1 hplays

/-- What the first flow of a run comes to, and which values are noted then. -/
theorem begin_reports (hT : T.Allows d) (hleft : T.Tells left) (hdest : dest ∈ d.completed)
    (hK : ¬ K.Suspends) (hstack : Stacked (T.hosting d) L K.Occurs stack r.spared)
    (hp : Conducts (T.hosting d) L K.spared w (.ok p) q) (hx : (T.hosting d).Holds w (x, []))
    (tag : Nat) (host : Value) :
    (∀ cs o t, Traced (Run.begin p (.tuple tag stack) host dest) (T.store w) cs o t →
      ∃ es v y, K.Plays r q x es v y) ∧
    ∀ es v y, K.Plays r q x es v y → ∃ cs o t,
      Traced (Run.begin p (.tuple tag stack) host dest) (T.store w) cs o t ∧ L.events T.see cs = es ∧
      match ((K.under r).node v).told left with
      | .ok a => o = .ok () ∧ t.OnDesk d T.see [a]
      | .error g => ∃ f, o = .error f ∧ T.see (.failure f) = g ∧ t.OnDesk d T.see [] := by
  have hends := ends_tracked hT hdest hK hstack hp hx host
  rw [begin_tuple]
  constructor
  · intro cs o t htr
    obtain ⟨ds, e, u, hensured⟩ := htr.exists_of_bind
    obtain ⟨ds, e, u, htracked⟩ := hensured.exists_of_bind
    obtain ⟨es, v, y, hplays, -⟩ := hends.ends _ _ _ htracked
    exact ⟨es, v, y.1, hplays⟩
  · intro es v y hplays
    obtain ⟨cs, o, z, htr, -, hevents, hy, ho⟩ := hends.as es v (y, _) ⟨hplays, rfl⟩
    obtain ⟨e, hensured, he⟩ := traced_ensureHandled hleft z ho.looks
    have hboth := traced_bind_after htr hensured
    rw [List.append_nil] at hboth
    have hdesk := hy.2
    rw [Conduct.node_spared] at he
    cases hnode : (K.under r).node v with
    | leaf a =>
      rw [hnode] at he hdesk
      obtain ⟨p, rfl⟩ := he
      exact ⟨cs ++ [], _, _, hboth.bind (.done _ _), (congrArg _ (List.append_nil cs)).trans hevents,
        rfl, hdesk⟩
    | operation name ps =>
      rw [hnode] at he hdesk
      obtain ⟨f, rfl, hf⟩ := he
      exact ⟨cs, _, _, hboth.bind_error, hevents, f, rfl, hf, hdesk⟩
    | failure g =>
      rw [hnode] at he hdesk
      obtain ⟨f, rfl, hf⟩ := he
      exact ⟨cs, _, _, hboth.bind_error, hevents, f, rfl, hf, hdesk⟩

end Hosted

section Agendas

/-- What is put at the end is put nowhere else. -/
theorem getElem?_push_of_ne {α : Type} {xs : Array α} {x : α} {i : Nat} (hi : i ∉ some xs.size) :
    (xs.push x)[i]? = xs[i]? := by
  rw [Array.getElem?_push, if_neg]
  rintro rfl
  exact hi rfl

theorem traced_drain_empty {s : Store} {i : Nat} {a : Agenda} (ha : s.agendas[i]? = some a)
    (hempty : a.queue = .empty) : Traced (Host.drain i) s [] (.ok (.int 0)) s := by
  have hpop : a.pop? = none := by
    unfold Agenda.pop?
    rw [hempty]
    rfl
  exact (traced_step_none ha hpop).bind (.done _ _)

theorem Store.OnDesk.completedAt {s : Store} {d : Desk} {see : Value → V} {vs : List V} {i : Nat}
    (h : s.OnDesk d see vs) (hi : i ∈ d.completed) :
    s.completed[i]? = some (s.completedAt i) ∧ (s.completedAt i).map see = vs := by
  obtain ⟨l, hl, hsee⟩ := h.values i hi
  have hat : s.completedAt i = l := by
    rw [Store.completedAt, Array.getD_eq_getD_getElem?, hl, Option.getD_some]
  exact ⟨hat ▸ hl, hat ▸ hsee⟩

/-- Before its program begins a run makes an agenda and the list of the values that are reached. -/
theorem exists_traced_hosting (see : Value → V) (s : Store) : ∃ t,
    Traced (Run.hosting .nothing) s [] (.ok (.agenda s.agendas.size, s.completed.size)) t ∧
    s.Books ⟨some s.completed.size, some s.agendas.size, none⟩ t ∧
    t.OnDesk ⟨some s.completed.size, some s.agendas.size, none⟩ see [] := by
  refine ⟨_, .read (.write (.read (.write (.read (.write (.done _ _)))))), ?_, ?_⟩
  · refine ⟨rfl, Nat.le_succ _, fun i hi => ?_, fun i hi => ?_, fun _ _ => rfl⟩
    · exact getElem?_push_of_ne hi
    · exact getElem?_push_of_ne hi
  · refine ⟨?_, ?_, nofun⟩
    · rintro _ ⟨⟩
      exact ⟨[], Array.getElem?_push_size, rfl⟩
    · rintro _ ⟨⟩
      exact ⟨_, Array.getElem?_push_size, rfl⟩

variable {left : String → List V → V} {w : T.World} {p : Value} {stack : List Value} {q : σ} {x : τ}
  {d : Desk}

/-- The outcome of a run on a new agenda tells what the machine comes to. -/
theorem runScheduled_reports
    (hd : d = ⟨some (T.store w).completed.size, some (T.store w).agendas.size, none⟩)
    (hT : T.Allows d) (hleft : T.Tells left) (hK : ¬ K.Suspends)
    (hstack : Stacked (T.hosting d) L K.Occurs stack r.spared)
    (hp : Conducts (T.hosting d) L K.spared w (.ok p) q) (hx : T.Holds w x) (tag : Nat) :
    (∀ cs o t, Traced (Run.runScheduled p (.tuple tag stack) .nothing .nothing) (T.store w) cs o t →
      ∃ es v y, K.Plays r q x es v y) ∧
    ∀ es v y, K.Plays r q x es v y → ∃ cs outcome t,
      Traced (Run.runScheduled p (.tuple tag stack) .nothing .nothing) (T.store w) cs (.ok outcome) t ∧
      L.events T.see cs = es ∧ Reported T.see (((K.under r).node v).told left) outcome := by
  obtain ⟨t, hhosting, hbooks, hdesk⟩ := exists_traced_hosting T.see (T.store w)
  rw [← hd] at hbooks hdesk
  obtain ⟨u, hu, rfl, hholds⟩ := hT.booked w t hbooks
  have hdest : (T.store w).completed.size ∈ d.completed := by rw [hd]; rfl
  have hagenda : (T.store w).agendas.size ∈ d.agenda := by rw [hd]; rfl
  obtain ⟨hends, hbegins⟩ := begin_reports hT hleft hdest hK hstack (hp.later hu)
    ⟨hholds x hx, hdesk⟩ tag (.agenda (T.store w).agendas.size)
  let host : Value := .agenda (T.store w).agendas.size
  rw [Run.runScheduled_eq]
  constructor
  · intro cs o v htr
    obtain ⟨ds, -, hflows⟩ := htr.of_bind hhosting
    obtain ⟨ds, e, z, hattempt⟩ := Traced.exists_of_bind (a := Action.attempt _) hflows
    obtain ⟨e, -, hagenda⟩ := hattempt.of_attempt
    obtain ⟨ds, e, z, hbegin⟩ := Traced.exists_of_bind (a := Run.begin _ _ _ _) hagenda
    exact hends _ _ _ hbegin
  · intro es v y hplays
    obtain ⟨cs, o, z, hbegin, hevents, hend⟩ := hbegins es v y hplays
    cases htold : ((K.under r).node v).told left with
    | ok a =>
      rw [htold] at hend
      obtain ⟨rfl, hdesk'⟩ := hend
      obtain ⟨agenda, ha, hempty⟩ := hdesk'.agenda _ hagenda
      obtain ⟨hvs, hsee⟩ := hdesk'.completedAt hdest
      obtain ⟨result, n, records, hsettled, -, hconcluded⟩ := traced_concluded ha hvs (.int 0)
      have hdrained := hbegin.bind (k := fun _ => Run.drainHost host) (traced_drain_empty ha hempty)
      have hflows := hdrained.attempt.bind (k := Run.conclude host _) hconcluded
      refine ⟨[] ++ (cs ++ [] ++ []), _, _, hhosting.bind hflows, ?_, hsettled.reported hsee⟩
      rwa [List.nil_append, List.append_nil, List.append_nil]
    | error g =>
      rw [htold] at hend
      obtain ⟨f, rfl, rfl, hdesk'⟩ := hend
      obtain ⟨-, hsee⟩ := hdesk'.completedAt hdest
      obtain ⟨outcome, v, hfailed, hreported, -⟩ := exists_traced_failed hT.see_identify f hsee
        (z.logged ⟨"DEBUG", Run.logComponent, "run_scheduled failed: " ++ (z.show (.failure f)).quoted⟩)
      have hdrained := hbegin.bind_error (k := fun _ => Run.drainHost host)
      have hflows := hdrained.attempt.bind (k := Run.conclude host _) (.read (.write (.read hfailed)))
      refine ⟨[] ++ (cs ++ []), outcome, v, hhosting.bind hflows, ?_, hreported⟩
      rwa [List.nil_append, List.append_nil]

end Agendas

section Loops

variable {left : String → List V → V} {w : T.World} {p : Value} {stack : List Value} {q : σ} {x : τ}
  {d : Desk}

/-- The store in which the program of a run on a loop begins. -/
def Run.looped (s : Store) : Store := { Run.opened s with completed := s.completed.push [] }

/-- Before its program begins a run makes a loop and the list of the values that are reached. -/
theorem Store.books_looped (s : Store) :
    s.Books ⟨some s.completed.size, none, some s.loops.size⟩ (Run.looped s) :=
  ⟨rfl, Nat.le_refl _, fun _ hi => getElem?_push_of_ne hi, fun _ _ => rfl,
    fun _ hi => getElem?_push_of_ne hi⟩

theorem Store.onDesk_looped (see : Value → V) (s : Store) :
    (Run.looped s).OnDesk ⟨some s.completed.size, none, some s.loops.size⟩ see [] := by
  refine ⟨?_, nofun, ?_⟩
  · rintro _ ⟨⟩
    exact ⟨[], Array.getElem?_push_size, rfl⟩
  · rintro _ ⟨⟩
    exact Array.getElem?_push_size

theorem EventLoop.idle_starting : EventLoop.starting.Idle := ⟨rfl, rfl, rfl⟩

/-- What is outstanding on a loop that nobody has used: nothing. -/
theorem traced_turning_starting {s : Store} {i : Nat} (h : s.loops[i]? = some .starting) :
    ∃ cs, Traced (Action.ask (.arrowOf (.turning i)) []) s cs (.ok .nothing) s ∧
      ∀ see : Value → V, L.events see cs = [] := by
  have hbody : Traced (Function.apply (.turning i) (.of [])) s [] (.ok .nothing) s := by
    refine .read ?_
    simp only [h]
    exact .done _ _
  exact ⟨_, .invoke hbody, fun see => L.events_silent (f := .turning i) rfl 0 _ []⟩

/-- When the first flow of a run has ended on a loop that nobody has used, the outcome is known. -/
theorem exists_traced_outcome {s z : Store} {handlers : Value} {i : Nat} {cs : List Call}
    (hbegin : Traced (Run.begin p handlers (.loopHost i) s.completed.size)
      { s with completed := s.completed.push [] } cs (.ok ()) z)
    (hstarting : z.loops[i]? = some .starting) :
    ∃ ds result n, Settled (z.completedAt s.completed.size) result ∧
      Traced (Run.outcomeOnLoop p handlers i) s (cs ++ ds)
        (.ok (.outcome 0 result (.tuple 0 (z.completedAt s.completed.size)))) (z.tagsFrom n) ∧
      ∀ see : Value → V, L.events see ds = [] := by
  obtain ⟨ds, hturning, hsilent⟩ := traced_turning_starting (V := V) (L := L) hstarting
  obtain ⟨result, n, hsettled, -, hsettle⟩ := traced_outcome (z.completedAt s.completed.size) z
  refine ⟨ds ++ [], result, n, hsettled,
    .read (.write (hbegin.attempt.bind (hturning.bind (.read ?_)))), fun see => ?_⟩
  · simp only [hstarting]
    exact .read hsettle
  · rw [List.append_nil, hsilent]

/-- When the outcome is known the loop is closed. -/
def Run.closeAfter (loop : Nat) (outcome : Value) : Action Value := do
  Host.closingTurn loop
  Host.updateLoop loop fun l => { l with isClosed := true }
  Action.update fun s => { s with loopIsRunning := false }
  return outcome

theorem traced_closeAfter {s : Store} {i : Nat} (h : s.loops[i]? = some .starting) (outcome : Value) :
    Traced (Run.closeAfter i outcome) s [] (.ok outcome) (Run.closed i s) :=
  (Run.traced_closingTurn h EventLoop.idle_starting).bind (.write (.write (.done _ _)))

/-- The outcome of a run on a loop of its own tells what the machine comes to. -/
theorem runOnLoop_reports
    (hd : d = ⟨some (T.store w).completed.size, none, some (T.store w).loops.size⟩)
    (hidle : (T.store w).loopIsRunning = false) (hT : T.Allows d) (hleft : T.Tells left)
    (hK : ¬ K.Suspends) (hstack : Stacked (T.hosting d) L K.Occurs stack r.spared)
    (hp : Conducts (T.hosting d) L K.spared w (.ok p) q) (hx : T.Holds w x) (tag : Nat) :
    (∀ cs o t, Traced (Run.runOnLoop p (.tuple tag stack)) (T.store w) cs o t →
      ∃ es v y, K.Plays r q x es v y) ∧
    ∀ es v y, K.Plays r q x es v y → ∃ cs outcome t,
      Traced (Run.runOnLoop p (.tuple tag stack)) (T.store w) cs (.ok outcome) t ∧
      L.events T.see cs = es ∧ Reported T.see (((K.under r).node v).told left) outcome := by
  have hbooks : (T.store w).Books d (Run.looped (T.store w)) := hd ▸ (T.store w).books_looped
  have hdesk := Store.onDesk_looped T.see (T.store w)
  rw [← hd] at hdesk
  obtain ⟨u, hu, hstore, hholds⟩ := hT.booked w _ hbooks
  rw [← hstore] at hdesk
  have hdest : (T.store w).completed.size ∈ d.completed := by rw [hd]; rfl
  have hloop : (T.store w).loops.size ∈ d.loop := by rw [hd]; rfl
  obtain ⟨hends, hbegins⟩ := begin_reports hT hleft hdest hK hstack (hp.later hu)
    ⟨hholds x hx, hdesk⟩ tag (.loopHost (T.store w).loops.size)
  rw [hstore] at hends hbegins
  constructor
  · intro cs o v htr
    cases htr with | read htr =>
    simp only [hidle] at htr
    cases htr with | write htr => cases htr with | read htr => cases htr with | write htr =>
    obtain ⟨ds, e, z, houtcome⟩ := Traced.exists_of_bind (a := Run.outcomeOnLoop _ _ _) htr
    cases houtcome with | read houtcome => cases houtcome with | write houtcome =>
    obtain ⟨ds, e, z, hattempt⟩ := Traced.exists_of_bind (a := Action.attempt _) houtcome
    obtain ⟨e, -, hbegin⟩ := hattempt.of_attempt
    exact hends _ _ _ hbegin
  · intro es v y hplays
    -- Whatever the outcome is, the loop is closed without anything being called.
    suffices h : ∃ cs outcome t, Traced (Run.outcomeOnLoop p (.tuple tag stack) (T.store w).loops.size)
        (Run.opened (T.store w)) cs (.ok outcome) t ∧
        t.loops[(T.store w).loops.size]? = some .starting ∧ L.events T.see cs = es ∧
        Reported T.see (((K.under r).node v).told left) outcome by
      obtain ⟨cs, outcome, t, htr, hstarting, hevents, hreported⟩ := h
      have hclosed := htr.bind (k := Run.closeAfter _) (traced_closeAfter hstarting outcome)
      have hrun : Traced (Run.runOnLoop p (.tuple tag stack)) (T.store w) (cs ++ []) (.ok outcome)
          (Run.closed (T.store w).loops.size t) := by
        refine .read ?_
        simp only [hidle]
        exact .write (.read (.write hclosed))
      exact ⟨_, outcome, _, hrun, (congrArg _ (List.append_nil cs)).trans hevents, hreported⟩
    obtain ⟨cs, o, z, hbegin, hevents, hend⟩ := hbegins es v y hplays
    cases htold : ((K.under r).node v).told left with
    | ok a =>
      rw [htold] at hend
      obtain ⟨rfl, hdesk'⟩ := hend
      have hstarting := hdesk'.loop _ hloop
      obtain ⟨hvs, hsee⟩ := hdesk'.completedAt hdest
      obtain ⟨ds, result, n, hsettled, htr, hsilent⟩ :=
        exists_traced_outcome (L := L) (s := Run.opened (T.store w)) hbegin hstarting
      refine ⟨cs ++ ds, _, _, htr, hstarting, ?_, hsettled.reported hsee⟩
      rw [L.events_append, hsilent, List.append_nil, hevents]
    | error g =>
      rw [htold] at hend
      obtain ⟨f, rfl, rfl, hdesk'⟩ := hend
      obtain ⟨-, hsee⟩ := hdesk'.completedAt hdest
      obtain ⟨outcome, v, hfailed, hreported, hloops⟩ := exists_traced_failed hT.see_identify f hsee
        (z.logged ⟨"DEBUG", Run.logComponent, "async_run failed: " ++ (z.show (.failure f)).quoted⟩)
      refine ⟨cs ++ [], outcome, v, .read (.write (hbegin.attempt.bind (.read (.write (.read hfailed))))),
        ?_, ?_, hreported⟩
      · rw [hloops]
        exact hdesk'.loop _ hloop
      · rwa [List.append_nil]

end Loops

section Agreement

/-- Ways to run a program that does not suspend: directly, on a new agenda, and on a loop of its own. -/
inductive Runner where
  | direct
  | onAgenda
  | onLoop

/-- The outcome of running a program under handlers in this way. -/
def Runner.run (program handlers : Value) : Runner → Action Value
  | direct => Run.runCaught program handlers .nothing
  | onAgenda => Run.runScheduled program handlers .nothing .nothing
  | onLoop => Run.runOnLoop program handlers

/-- Where a runner that begins in this store keeps what it keeps for itself. -/
def Runner.desk (s : Store) : Runner → Desk
  | direct => ⟨none, none, none⟩
  | onAgenda => ⟨some s.completed.size, some s.agendas.size, none⟩
  | onLoop => ⟨some s.completed.size, none, some s.loops.size⟩

/-- In this world no loop is making turns, and the program and the handlers, beside what the runner keeps
for itself and with the private states as they are, conduct themselves as the machine in this state and as
the reactions. What the runner does for itself makes no difference to them. -/
structure Runner.Suits (a : Runner) (T : Venue V τ) (L : Listener) (K : Conduct V τ σ) (r : Reactions V τ)
    (left : String → List V → V) (w : T.World) (p : Value) (stack : List Value) (q : σ) (x : τ) :
    Prop where
  idle : (T.store w).loopIsRunning = false
  allows : T.Allows (a.desk (T.store w))
  tells : T.Tells left
  stacked : Stacked (T.hosting (a.desk (T.store w))) L K.Occurs stack r.spared
  conducts : Conducts (T.hosting (a.desk (T.store w))) L K.spared w (.ok p) q
  holds : T.Holds w x

theorem Runner.Suits.reports {a : Runner} {left : String → List V → V} {w : T.World} {p : Value}
    {stack : List Value} {q : σ} {x : τ} (h : a.Suits T L K r left w p stack q x) (hK : ¬ K.Suspends)
    (tag : Nat) :
    (∀ cs o t, Traced (a.run p (.tuple tag stack)) (T.store w) cs o t → ∃ es v y, K.Plays r q x es v y) ∧
    ∀ es v y, K.Plays r q x es v y → ∃ cs outcome t,
      Traced (a.run p (.tuple tag stack)) (T.store w) cs (.ok outcome) t ∧
      L.events T.see cs = es ∧ Reported T.see (((K.under r).node v).told left) outcome := by
  obtain ⟨hidle, hallows, htells, hstacked, hconducts, hholds⟩ := h
  cases a with
  | direct => exact runCaught_reports hallows htells hstacked hconducts hholds tag
  | onAgenda => exact runScheduled_reports rfl hallows htells hK hstacked hconducts hholds tag
  | onLoop => exact runOnLoop_reports rfl hidle hallows htells hK hstacked hconducts hholds tag

/-- The runners agree on programs that never suspend, under handlers that resume last: if one of them has
an outcome, then so has each other one, after the same events, and both outcomes tell the same value, which
is the only one that was reached, or the same failure, of an operation that is left or that was raised.
It is the machine that decides which, and no failure escapes. -/
theorem runners_agree (V τ σ : Type) (T : Venue V τ) (L : Listener) (K : Conduct V τ σ)
    (r : Reactions V τ) (left : String → List V → V) (a b : Runner) (w u : T.World) (p p' : Value)
    (stack stack' : List Value) (q : σ) (x : τ) (hK : ¬ K.Suspends)
    (ha : a.Suits T L K r left w p stack q x) (hb : b.Suits T L K r left u p' stack' q x)
    (tag tag' : Nat) (cs : List Call) (o : Ending) (t : Store)
    (h : Traced (a.run p (.tuple tag stack)) (T.store w) cs o t) :
    ∃ v y outcome cs' outcome' t', K.Plays r q x (L.events T.see cs) v y ∧ o = .ok outcome ∧
      Traced (b.run p' (.tuple tag' stack')) (T.store u) cs' (.ok outcome') t' ∧
      L.events T.see cs' = L.events T.see cs ∧
      Reported T.see (((K.under r).node v).told left) outcome ∧
      Reported T.see (((K.under r).node v).told left) outcome' := by
  obtain ⟨hends, hreports⟩ := ha.reports hK tag
  obtain ⟨es, v, y, hplays⟩ := hends cs o t h
  obtain ⟨ds, outcome, s, htr, hevents, hreported⟩ := hreports es v y hplays
  obtain ⟨rfl, rfl, rfl⟩ := h.unique htr
  obtain ⟨cs', outcome', t', htr', hevents', hreported'⟩ := (hb.reports hK tag').2 es v y hplays
  exact ⟨v, y, outcome, cs', outcome', t', hevents ▸ hplays, rfl, htr', hevents'.trans hevents.symm,
    hreported, hreported'⟩

end Agreement

section Witness

theorem allows_shapes (d : Desk) : Venue.shapes.Allows d where
  see_tagged := Value.shape_tagged
  booked _ t _ := ⟨t, trivial, rfl, fun _ _ => trivial⟩

theorem tells_shapes : Venue.shapes.Tells fun _ _ => .other := by
  intro w name params
  rfl

/-- Identities may be given out beside a desk. -/
theorem Venue.Plain.hosting {T : Venue Shape τ} (hT : T.Plain) (d : Desk) : (T.hosting d).Plain where
  see_tagged := hT.see_tagged
  renumbered w n hn := by
    obtain ⟨u, hu, hstore, hholds⟩ := hT.renumbered w n hn
    refine ⟨u, hu, hstore, fun x hx => ⟨hholds x.1 hx.1, ?_⟩⟩
    show (T.store u).OnDesk d T.see x.2
    rw [hstore]
    exact ⟨hx.2.values, hx.2.agenda, hx.2.loop⟩
  see_eq := hT.see_eq
  fit := hT.fit

variable {β : Type}

theorem spared_says : (Says (τ := τ)).spared = (Says : Reaction Shape (τ × β)) := by
  funext ps ⟨x, b⟩ es o ⟨y, c⟩
  refine propext ⟨?_, fun h => ?_⟩
  · rintro ⟨h, ⟨⟩⟩
    cases h with
    | said m => exact .said m _
    | refused _ hps => exact .refused _ hps
  · cases h with
    | said m => exact ⟨.said m _, rfl⟩
    | refused _ hps => exact ⟨.refused _ hps, rfl⟩

theorem spared_gives (t : String) : (Gives t (τ := τ)).spared = (Gives t : Reaction Shape (τ × β)) := by
  funext ps ⟨x, b⟩ es o ⟨y, c⟩
  refine propext ⟨?_, fun h => ?_⟩
  · rintro ⟨h, ⟨⟩⟩
    cases h with
    | answered => exact .answered _
    | refused _ hps => exact .refused _ hps
  · cases h with
    | answered => exact ⟨.answered _, rfl⟩
    | refused _ hps => exact ⟨.refused _ hps, rfl⟩

theorem spared_saying :
    (Saying.conduct (τ := τ)).spared = (Saying.conduct : Conduct Shape (τ × β) Saying) := by
  refine congrArg (Conduct.mk _) ?_
  funext q a ⟨x, b⟩ es p ⟨y, c⟩
  refine propext ⟨?_, fun h => ?_⟩
  · rintro ⟨h, ⟨⟩⟩
    cases h with
    | said => exact .said a _
    | answered => exact .answered a _
  · cases h with
    | said => exact ⟨.said a _, rfl⟩
    | answered => exact ⟨.answered a _, rfl⟩

/-- What the operation with this name comes to. -/
def only (name : String) (react : Reaction V τ) : Reactions V τ := fun n => if n = name then some react else none

theorem spared_only (name : String) (react : Reaction V τ) :
    (only name react).spared = (only name react.spared : Reactions V (τ × β)) := by
  funext n
  show Option.map _ (if n = name then _ else _) = if n = name then _ else _
  split <;> rfl

/-- The reactions of the scripts. -/
def scriptReactions : Reactions Shape τ :=
  (only "say" Says).orElse ((only "name" (Gives "b")).orElse fun _ => none)

theorem spared_scriptReactions :
    (scriptReactions (τ := τ)).spared = (scriptReactions : Reactions Shape (τ × β)) := by
  have horElse (r r' : Reactions Shape τ) : (r.orElse r').spared =
      (r.spared.orElse r'.spared : Reactions Shape (τ × β)) := by
    funext name
    exact Option.map_or
  unfold scriptReactions
  rw [horElse, horElse, spared_only, spared_only, spared_says, spared_gives]
  rfl

/-- A handler with one implementation. -/
theorem handled_only {occurs : String → Prop} {name : String} {implementation : Value}
    {react : Reaction V τ} (h : Reacts T L implementation react) :
    Handled T L occurs [(name, implementation)] (only name react) := by
  intro n _
  by_cases hn : n = name
  · subst hn
    refine .inr ⟨implementation, react, ?_, if_pos rfl, h⟩
    rw [List.lookup_cons, beq_self_eq_true]
  · refine .inl ⟨?_, if_neg hn⟩
    rw [List.lookup_cons, beq_false_of_ne hn]
    rfl

theorem stacked_scripts {T : Venue Shape τ} (hT : T.Plain) (occurs : String → Prop) :
    Stacked T sinkListener occurs scripts scriptReactions :=
  .cons (handled_only (reacts_sayScript hT)) (.cons (handled_only (reacts_answerScript hT "b")) .nil)

theorem not_suspends_saying : ¬ (Saying.conduct (τ := τ)).Suspends := by
  have hnames {name : String} (h : (Saying.conduct (τ := τ)).Occurs name) : name ∈ ["say", "name"] := by
    obtain ⟨q, ps, hq⟩ := h
    cases q with
    | saying => exact List.mem_cons.2 (.inl (Node.operation.inj hq).1.symm)
    | asking => exact List.mem_cons_of_mem _ (List.mem_singleton.2 (Node.operation.inj hq).1.symm)
    | named v => cases hq
  rintro (h | h)
  · exact absurd (hnames h) (by decide)
  · exact absurd (hnames h) (by decide)

/-- Every runner can run the program under the scripts. -/
theorem suits_saying (a : Runner) : a.Suits Venue.shapes sinkListener (Saying.conduct (τ := Unit))
    scriptReactions (fun _ _ => .other) Store.empty sayingProgram scripts .saying () where
  idle := rfl
  allows := allows_shapes _
  tells := tells_shapes
  stacked := by
    rw [spared_scriptReactions]
    exact stacked_scripts (plain_shapes.hosting _) _
  conducts := by
    rw [spared_saying]
    exact conducts_saying (plain_shapes.hosting _) _
  holds := trivial

theorem says_and_tells : (Saying.conduct (τ := Unit)).Plays scriptReactions .saying ()
    [.said (.text "a")] (.rests (.named (.text "b"))) () := by
  exact .resumes (K := Saying.conduct) rfl rfl (Says.said (.text "a") ()) (Saying.Next.said .nothing ())
    (Conduct.Plays.resumes (K := Saying.conduct) rfl rfl (Gives.answered ())
      (Saying.Next.answered (.text "b") ()) (.rests nofun))

/-- Run in each way, the program says what it has to, and the outcome is the name. -/
theorem runners_agree_scripts : ∃ cs ds es o p q s t u,
    Traced (Run.runCaught sayingProgram (.tuple 0 scripts) .nothing) Store.empty cs (.ok o) s ∧
    Traced (Run.runScheduled sayingProgram (.tuple 0 scripts) .nothing .nothing) Store.empty ds (.ok p) t ∧
    Traced (Run.runOnLoop sayingProgram (.tuple 0 scripts)) Store.empty es (.ok q) u ∧
    (∀ l ∈ [cs, ds, es], sinkListener.events Value.shape l = [.said (.text "a")]) ∧
    ∀ outcome ∈ [o, p, q], Reported Value.shape (.ok (.text "b")) outcome := by
  obtain ⟨cs, o, s, htr, hevents, hreported⟩ :=
    ((suits_saying .direct).reports not_suspends_saying 0).2 _ _ _ says_and_tells
  -- Each of the other two runners tells what the first one tells.
  have hagree (b : Runner) : ∃ ds p t, Traced (b.run sayingProgram (.tuple 0 scripts)) Store.empty ds
      (.ok p) t ∧ sinkListener.events Value.shape ds = [.said (.text "a")] ∧
      Reported Value.shape (.ok (.text "b")) p := by
    obtain ⟨v, y, o', ds, p, t, -, ⟨⟩, htr', hevents', htold, hreported'⟩ :=
      runners_agree Shape Unit Saying Venue.shapes sinkListener Saying.conduct scriptReactions
        (fun _ _ => .other) .direct b Store.empty Store.empty sayingProgram sayingProgram scripts
        scripts .saying () not_suspends_saying (suits_saying _) (suits_saying _) 0 0 cs _ s htr
    rw [htold.unique hreported] at hreported'
    exact ⟨ds, p, t, htr', hevents'.trans hevents, hreported'⟩
  obtain ⟨ds, p, t, htr', hevents', hreported'⟩ := hagree .onAgenda
  obtain ⟨es, q, u, htr'', hevents'', hreported''⟩ := hagree .onLoop
  refine ⟨cs, ds, es, o, p, q, s, t, u, htr, htr', htr'', ?_, ?_⟩
  · simp only [List.forall_mem_cons]
    exact ⟨hevents, hevents', hevents'', nofun⟩
  · simp only [List.forall_mem_cons]
    exact ⟨hreported, hreported', hreported'', nofun⟩

end Witness

section Nested

/-- Reads the environment, runs a program on a loop of its own, and ends with a number. -/
def nesting : Value :=
  .operation 0 Environment.readName [] (.arrowOf (.grafted (.arrowOf .leaf) (.arrowOf
    (.closure "fn" ⟨["x"], none⟩ (.block [.form (.core .runOnLoop)
      [.form (.core .leaf) [.literal (.int 2)] []] [], .literal (.int 1)]) []))))

/-- The handler that reads an empty environment, alone. -/
def readingNothing : Value :=
  .tuple 0 [Handler.ofFunctions [(Environment.readName, .readAll 0 []), (Environment.askName, .askFor [])]
    none]

/-- Whether a run has ended with the number one, which is the only value that was reached. -/
def tellsOne : Option (Ending × Store) → Bool
  | some (.ok (.outcome 0 (.ok 0 (.int 1)) (.tuple 0 [.int 1])), _) => true
  | _ => false

/-- Whether a run has ended because there is a loop already. -/
def tellsRefused : Option (Ending × Store) → Bool
  | some (.ok (.outcome 0 (.err 0 (.failure (.caught _ (.fault .runtime)))) (.tuple 0 [])), _) => true
  | _ => false

theorem runs_of_tellsOne {run : Action Value} {n : Nat}
    (h : tellsOne (Action.run Value.apply n run [] .empty) = true) :
    ∃ s, Action.Runs Value.apply run .empty (.ok (Run.succeeded (.int 1) [.int 1])) s := by
  unfold tellsOne at h
  split at h
  · rename_i s hrun
    exact ⟨s, Action.exists_run_iff.1 ⟨n, hrun⟩⟩
  · cases h

theorem runs_of_tellsRefused {run : Action Value} {n : Nat}
    (h : tellsRefused (Action.run Value.apply n run [] .empty) = true) :
    ∃ tag s, Action.Runs Value.apply run .empty
      (.ok (.outcome 0 (.err 0 (.failure (.caught tag (.fault .runtime)))) (.tuple 0 []))) s := by
  unfold tellsRefused at h
  split at h
  · rename_i tag s hrun
    exact ⟨tag, s, Action.exists_run_iff.1 ⟨n, hrun⟩⟩
  · cases h

/-- The program never suspends, and its operation is answered at once. Run directly or on an agenda it ends
with its number, but on a loop it fails, because the loop that it asks for cannot be made there. -/
theorem runners_differ :
    (∃ s, Action.Runs Value.apply (Run.runCaught nesting readingNothing .nothing) .empty
      (.ok (Run.succeeded (.int 1) [.int 1])) s) ∧
    (∃ s, Action.Runs Value.apply (Run.runScheduled nesting readingNothing .nothing .nothing) .empty
      (.ok (Run.succeeded (.int 1) [.int 1])) s) ∧
    ∃ tag s, Action.Runs Value.apply (Run.runOnLoop nesting readingNothing) .empty
      (.ok (.outcome 0 (.err 0 (.failure (.caught tag (.fault .runtime)))) (.tuple 0 []))) s :=
  ⟨runs_of_tellsOne (n := 400) (by decide +kernel), runs_of_tellsOne (n := 400) (by decide +kernel),
    runs_of_tellsRefused (n := 400) (by decide +kernel)⟩

end Nested

end AlgebraicEffects
