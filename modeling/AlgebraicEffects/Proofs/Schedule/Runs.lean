import AlgebraicEffects.Proofs.Schedule.Turns

/-!
Runs until nothing is left to do.

The next task of an agenda is taken off the books, and what its flow does in its turn is put back on
them: the total stays, and less is planned (`Books.Sound.step`). So a run of the agenda ends, and then
all that was planned has been reached (`Books.Sound.drain`).
-/

set_option autoImplicit false

namespace AlgebraicEffects

open Action (Traced)

variable {V : Type} {S : Scene V} {C : Course S}

section Steps

variable {address : Nat} {s : Store} {a next : Agenda} {task : Task}

/-- Without a next task a step does nothing. -/
theorem traced_step_none (ha : s.agendas[address]? = some a) (hpop : a.pop? = none) :
    Traced (Host.step address) s [] (.ok false) s := by
  refine (traced_agendaAt ha).bind ?_
  rw [hpop]
  exact .done _ _

/-- The next task is taken and called. -/
theorem traced_step_some (ha : s.agendas[address]? = some a) (hlimit : a.maxSteps = .nothing)
    (hpop : a.pop? = some (task, next)) :
    ∃ records, ∀ cs v t, Traced (Action.ask task.callback task.arguments)
        { s with agendas := s.agendas.setIfInBounds address next, records := records } cs (.ok v) t →
      Traced (Host.step address) s cs (.ok true) t := by
  have hfree : a.atLimit = false := by
    unfold Agenda.atLimit
    rw [hlimit]
    rfl
  apply Exists.intro
  intro cs v t hcall
  refine (traced_agendaAt ha).bind ?_
  simp only [hpop, hfree, Bool.false_eq_true, if_false]
  refine .write (.read (.write ?_))
  rw [← List.append_nil cs]
  exact hcall.bind (.done _ _)

end Steps

/-- The books after a task was taken. -/
def Books.take (b : Books V) (task : Task) (rest : List (Task × Plan V)) : Books V :=
  { b with log := b.log ++ [.taken task], plans := rest }

section Running

variable {address dest : Nat} {w u : S.World} {b : Books V} {now : Number}

/-- The task that is taken is on the books with a plan, and nothing else goes off them. -/
theorem Books.Sound.taken (h : b.Sound C address dest w now) {a next : Agenda} {task : Task}
    (ha : (S.store w).agendas[address]? = some a) (hpop : a.pop? = some (task, next)) :
    ∃ p rest, b.plans.Perm ((task, p) :: rest) ∧ task.Carries C address dest w p ∧
      ∀ u records, C.Later w u → S.store u = { S.store w with
        agendas := (S.store w).agendas.setIfInBounds address next, records := records } →
      (b.take task rest).Sound C address dest u task.time := by
  obtain ⟨a', ha', hledger, hlimit, hnow⟩ := h.agenda
  obtain rfl : a = a' := Option.some.inj (ha.symm.trans ha')
  obtain ⟨hsplit, -, -⟩ := hledger.pops hpop
  have htaken := hledger.taken hpop
  obtain ⟨x, hx, hxtask⟩ := List.mem_map.1 ((h.pending.trans hsplit).mem_iff.2 List.mem_cons_self)
  obtain ⟨t, p⟩ := x
  obtain rfl : t = task := hxtask
  obtain ⟨before, after, hplans⟩ := List.append_of_mem hx
  have hperm : b.plans.Perm ((t, p) :: (before ++ after)) := hplans ▸ List.perm_middle
  refine ⟨p, before ++ after, hperm, h.carries _ hx, fun u records hlater hu => ?_⟩
  obtain ⟨queue, -, hnext⟩ := Agenda.exists_of_pop hpop
  have hdue : next.currentTime.number? = some t.time := by
    rw [hnext]
    exact number?_ofNumber _ _
  have hagenda : (S.store u).agendas[address]? = some next := by
    rw [hu]
    exact Array.getElem?_setIfInBounds_self.trans (if_pos (Array.getElem?_eq_some_iff.1 ha).1)
  obtain ⟨now', hnow', -, hlaterTasks, -⟩ := hledger.clock
  obtain rfl : now = now' := Option.some.inj (hnow.symm.trans hnow')
  have hle := hlaterTasks t (hsplit.mem_iff.2 List.mem_cons_self)
  refine {
    agenda := ⟨next, hagenda, htaken, by rw [hnext]; exact hlimit, hdue⟩
    results := by rw [hu]; exact h.results
    pending := ((hperm.map Prod.fst).symm.trans (h.pending.trans hsplit)).cons_inv
    carries := fun x hx => (h.carries x (hperm.mem_iff.2 (List.mem_cons_of_mem _ hx))).later hlater
    sorted := h.sorted, past := fun x hx => (h.past x hx).trans hle }

/-- A step of the agenda either finds nothing planned, or keeps the total and leaves less planned. -/
theorem Books.Sound.step (h : b.Sound C address dest w now) (hC : C.Hosts) {k : Bool → Action Value}
    {Q : S.World → Ending → Prop}
    (hnone : b.plans = [] → ∀ a, (S.store w).agendas[address]? = some a → a.queue.toList = [] →
      Ends C (k false) w Q)
    (hsome : ∀ u b' now', C.Later w u → Books.Sound C address dest b' u now' → b'.total.Perm b.total →
      b'.size < b.size → Ends C (k true) u Q) :
    Ends C ((Host.step address).bind k) w Q := by
  obtain ⟨a, ha, hledger, hlimit, -⟩ := h.agenda
  cases hpop : a.pop? with
  | none =>
    have hnothing := hledger.pending_eq_nil hpop
    have hplans : b.plans = [] := List.map_eq_nil_iff.1 (hnothing ▸ h.pending).eq_nil
    have hqueue : a.queue.toList = [] := (hnothing ▸ hledger.holds).eq_nil
    obtain ⟨cs, o, z, hk, hz, hsaid, ho⟩ := hnone hplans a ha hqueue
    exact ⟨cs, o, z, (traced_step_none ha hpop).bind hk, hz, hsaid, ho⟩
  | some found =>
    obtain ⟨task, next⟩ := found
    obtain ⟨p, rest, hplans, hcarries, hsound⟩ := h.taken ha hpop
    obtain ⟨records, hstep⟩ := traced_step_some ha hlimit hpop
    obtain ⟨u, hu, hlater⟩ := hC w { S.store w with
      agendas := (S.store w).agendas.setIfInBounds address next, records := records }
      ⟨Nat.le_refl _, rfl⟩
    have hsound := hsound u records hlater hu
    obtain ⟨resume, answer, hcallback, harguments, hcontinues, htimely⟩ := hcarries.later hlater
    obtain ⟨cs, o, z, htr, hz, hsilent, ⟨tag, x, rfl⟩, b', hsound', htotal, hsize⟩ :=
      ends_wakeup harguments hcontinues fun z v hz hspares hgoes =>
        (hsound.spared hz hspares).turn hC hgoes htimely
    rw [hu, ← hcallback] at htr
    have hperm : b.total.Perm ((b.take task rest).total ++ p.finishes task.time) := by
      unfold Books.total
      rw [List.append_assoc]
      refine List.Perm.append_left _ ((hplans.flatMap_right _).trans ?_)
      exact List.perm_append_comm
    have hless : b.size = p.size + (b.take task rest).size := (hplans.map _).sum_nat
    obtain ⟨ds, e, y, hk, hy, hsaid, he⟩ := hsome z b' task.time (C.trans hlater hz) hsound'
      (htotal.trans hperm.symm) (by omega)
    refine ⟨cs ++ ds, e, y, (hstep cs _ _ htr).bind hk, C.trans (C.trans hlater hz) hy, ?_, he⟩
    rw [Listener.heard_append, hsilent, hsaid]
    rfl

/-- A run of the agenda ends with nothing planned, and all that was planned has been reached. -/
theorem Books.Sound.drain (h : b.Sound C address dest w now) (hC : C.Hosts) (executed : Nat) :
    Ends C (Host.drainingBody address executed) w fun z e => (∃ n : Nat, e = .ok (.int n)) ∧
      ∃ b' : Books V, (∃ now', b'.Sound C address dest z now') ∧ b'.finished.Perm b.total ∧
        ∃ a, (S.store z).agendas[address]? = some a ∧ a.queue.toList = [] := by
  induction hsize : b.size using Nat.strong_induction_on generalizing b w now executed with
  | _ size ih =>
    refine h.step hC (fun hplans a ha hqueue => .done ⟨⟨executed, rfl⟩, b, ⟨now, h⟩, ?_, a, ha, hqueue⟩)
      fun u b' now' _ h' htotal hless => ?_
    · unfold Books.total
      rw [hplans, List.flatMap_nil, List.append_nil]
    · refine .ask rfl ((ih b'.size (hsize ▸ hless) h' (executed + 1) rfl).mono fun z e _ hz => ?_)
      obtain ⟨he, b'', hsound, hfinished, hempty⟩ := hz
      exact ⟨he, b'', hsound, hfinished.trans htotal, hempty⟩

/-- A run begins with the flow that it is given, and goes on until nothing is planned. -/
theorem Books.Sound.run (h : b.Sound C address dest w now) (hC : C.Hosts) {p : Plan V}
    {program : Value} (hp : Goes C p w (.ok program)) (htimely : p.Timely) :
    Ends C ((Run.begin program (.tuple 0 []) (.agenda address) dest).bind fun _ =>
        Run.drainHost (.agenda address)) w fun z e => (∃ n : Nat, e = .ok (.int n)) ∧
      ∃ b' : Books V, (∃ now', b'.Sound C address dest z now') ∧
        b'.finished.Perm (b.total ++ p.finishes now) ∧
        ∃ a, (S.store z).agendas[address]? = some a ∧ a.queue.toList = [] := by
  show Ends C (((Program.graft program (.arrowOf (.recordIn dest))).bind fun tracked =>
    (Handler.applyAll tracked [Suspension.handler (.agenda address)]).bind fun residual =>
      (Suspension.ensureHandled residual).bind fun _ => .done ()).bind fun _ =>
        Host.drain address) w _
  rw [Action.bind_assoc]
  refine .bind_silent ((h.turn hC hp htimely).mono fun u e _ hu => ?_)
  obtain ⟨q, rfl, hevaluated⟩ := hu
  refine ⟨q, rfl, ?_⟩
  rw [← Handler.evaluate_lift] at hevaluated
  rw [Handler.applyAll_cons, Action.bind_assoc, Action.bind_assoc]
  refine .bind_silent ((Tells.invoke rfl hevaluated).mono fun z e _ hz => ?_)
  obtain ⟨⟨tag, x, rfl⟩, b', hsound, htotal, -⟩ := hz
  refine ⟨_, rfl, (hsound.drain hC 0).mono fun y e _ hy => ?_⟩
  obtain ⟨he, b'', hsound', hfinished, hempty⟩ := hy
  exact ⟨he, b'', hsound', hfinished.trans htotal, hempty⟩

end Running

end AlgebraicEffects
