import AlgebraicEffects.Proofs.Doubles.Times
import AlgebraicEffects.Proofs.Flows.Hosts
import AlgebraicEffects.Proofs.Flows.Suspending
import AlgebraicEffects.Proofs.Schedule.Plans
import AlgebraicEffects.Run

/-!
Turns of flows on an agenda.

Books are kept of a run: which values have been reached when, and which plan each pending task goes on
with (`Books`). Together they make up a total of values with their times. A flow takes a turn until it
ends, exits or is suspended; whatever is reached or left pending in the turn adds to the books what the
plan of the flow finishes, no more and no less (`Books.Sound.turn`).
-/

set_option autoImplicit false

namespace AlgebraicEffects

open Action (Traced)
open Suspension (suspendName)

variable {V : Type} {S : Scene V} {C : Course S}

section Worlds

/-- Beside agendas and results only records and the supply of identities may differ. -/
structure Store.Beside (s t : Store) : Prop where
  later : s.nextTag ≤ t.nextTag
  same : t = { s with
    nextTag := t.nextTag, agendas := t.agendas, completed := t.completed, records := t.records }

/-- A host may change its agendas and results in the course. -/
def Course.Hosts (C : Course S) : Prop :=
  ∀ w t, (S.store w).Beside t → ∃ u, S.store u = t ∧ C.Later w u

theorem Course.hosts_shapes : Course.shapes.Hosts := fun _ t _ => ⟨t, rfl, trivial⟩

variable {α : Type} {w : S.World} {Q : S.World → Ending → Prop}

/-- What a host does is a step of the course. -/
theorem Tells.hosted (hC : C.Hosts) {a : Action α} {k : α → Action Value} {x : α} {t : Store}
    (htr : Traced a (S.store w) [] (.ok x) t) (ht : (S.store w).Beside t)
    (h : ∀ u, S.store u = t → C.Later w u → Ends C (k x) u Q) : Ends C (a.bind k) w Q := by
  obtain ⟨u, rfl, hu⟩ := hC w t ht
  obtain ⟨cs, o, z, hk, hz, hsaid, ho⟩ := h u rfl hu
  exact ⟨cs, o, z, htr.bind hk, C.trans hu hz, hsaid, ho⟩

/-- What spares agendas and results takes its steps in the course. -/
theorem Tells.of_sparing {a : Action Value} (h : Ends C.sparing a w Q) :
    Ends C a w fun z e => (S.store w).Spares (S.store z) ∧ Q z e := by
  obtain ⟨cs, o, z, htr, hz, hsaid, ho⟩ := h
  exact ⟨cs, o, z, htr, hz.1, hsaid, hz.2, ho⟩

end Worlds

/-- The books of a run: what has happened to its agenda, which values have been reached when, and the
plans with which pending tasks go on. -/
structure Books (V : Type) where
  log : List Happening
  finished : List (Number × V)
  plans : List (Task × Plan V)

namespace Books

/-- All values that are reached, with their times, if nothing else is planned. -/
def total (b : Books V) : List (Number × V) :=
  b.finished ++ b.plans.flatMap fun x => x.2.finishes x.1.time

/-- How much is planned. -/
def size (b : Books V) : Nat := (b.plans.map fun x => x.2.size).sum

/-- A value is reached. -/
def reach (b : Books V) (now : Number) (v : V) : Books V :=
  { b with finished := b.finished ++ [(now, v)] }

/-- A task is scheduled that goes on with a plan. -/
def book (b : Books V) (delay : Number) (task : Task) (p : Plan V) : Books V :=
  { b with log := b.log ++ [.scheduled delay task], plans := b.plans ++ [(task, p)] }

theorem total_reach (b : Books V) (now : Number) (v : V) :
    (b.reach now v).total.Perm (b.total ++ [(now, v)]) := by
  unfold total reach
  rw [List.append_assoc, List.append_assoc]
  exact List.perm_append_comm.append_left b.finished

theorem total_book (b : Books V) (delay : Number) (task : Task) (p : Plan V) :
    (b.book delay task p).total = b.total ++ p.finishes task.time := by
  simp only [total, book, List.flatMap_append, List.flatMap_singleton, List.append_assoc]

theorem size_book (b : Books V) (delay : Number) (task : Task) (p : Plan V) :
    (b.book delay task p).size = b.size + p.size := by
  simp only [size, book, List.map_append, List.map_singleton, List.sum_append, List.sum_singleton]

end Books

/-- All waits of a plan are by delays that are not negative and have a nearest double. -/
def Plan.Timely (p : Plan V) : Prop :=
  ∀ d ∈ p.delays, TimeDomain.doubles.Delay d ∧ d.less (.int 0) = false

/-- The continuation of a suspended flow, as the host is given it. The flow notes its value at the
end. -/
def wakeup (address dest : Nat) (resume : Value) : Value :=
  .arrowOf (.resumeChecked (.arrowOf (.under (suspensionTable (.agenda address)) none
    (.arrowOf (.grafted resume (.arrowOf (.recordIn dest)))))))

/-- The task goes on with the plan. -/
def Task.Carries (C : Course S) (address dest : Nat) (w : S.World) (task : Task) (p : Plan V) : Prop :=
  ∃ resume answer, task.callback = wakeup address dest resume ∧
    (task.arguments = [answer] ∨ task.arguments = [] ∧ answer = .nothing) ∧
    Continues C p resume answer w ∧ p.Timely

theorem Task.Carries.later {address dest : Nat} {w u : S.World} {task : Task} {p : Plan V}
    (h : task.Carries C address dest w p) (hu : C.Later w u) : task.Carries C address dest u p := by
  obtain ⟨resume, answer, hcallback, harguments, hcontinues, htimely⟩ := h
  exact ⟨resume, answer, hcallback, harguments, fun z hz => hcontinues z (C.trans hu hz), htimely⟩

/-- The books are right: the agenda has kept its ledger and its clock shows this time, the results are
those that were reached, in the order of their times, and the pending tasks go on with the plans. -/
structure Books.Sound (C : Course S) (address dest : Nat) (b : Books V) (w : S.World)
    (now : Number) : Prop where
  agenda : ∃ a, (S.store w).agendas[address]? = some a ∧ Ledger .doubles b.log a ∧
    a.maxSteps = .nothing ∧ a.currentTime.number? = some now
  results : ∃ vs, (S.store w).completed[dest]? = some vs ∧ vs.map S.see = b.finished.map Prod.snd
  pending : (b.plans.map Prod.fst).Perm (AlgebraicEffects.pending b.log)
  carries : ∀ x ∈ b.plans, x.1.Carries C address dest w x.2
  sorted : b.finished.Pairwise fun x y => TimeDomain.doubles.rank x.1 ≤ TimeDomain.doubles.rank y.1
  past : ∀ x ∈ b.finished, TimeDomain.doubles.rank x.1 ≤ TimeDomain.doubles.rank now

namespace Books.Sound

variable {address dest : Nat} {b : Books V} {w u : S.World} {now : Number}

theorem mem (h : b.Sound C address dest w now) : TimeDomain.doubles.Mem now := by
  obtain ⟨a, -, hledger, -, hnow⟩ := h.agenda
  obtain ⟨now', hnow', hmem, -⟩ := hledger.clock
  obtain rfl : now = now' := Option.some.inj (hnow.symm.trans hnow')
  exact hmem

theorem spared (h : b.Sound C address dest w now) (hu : C.Later w u)
    (hspares : (S.store w).Spares (S.store u)) : b.Sound C address dest u now where
  agenda := by
    obtain ⟨a, ha, hrest⟩ := h.agenda
    exact ⟨a, hspares.agendas ha, hrest⟩
  results := by
    obtain ⟨vs, hvs, hsee⟩ := h.results
    exact ⟨vs, hspares.completed hvs, hsee⟩
  pending := h.pending
  carries x hx := (h.carries x hx).later hu
  sorted := h.sorted
  past := h.past

/-- Noting a value reaches it now. -/
theorem reach (h : b.Sound C address dest w now) (hC : C.Hosts) {x : Value} :
    Ends C (Action.ask (.arrowOf (.recordIn dest)) [x]) w fun z e =>
      (∃ y, e = .ok (.leaf 0 y)) ∧ (b.reach now (S.see x)).Sound C address dest z now := by
  obtain ⟨vs, hvs, hsee⟩ := h.results
  obtain ⟨n, hn, hstore⟩ := (S.store w).identify_snd x
  have hidentified := traced_identify (S.store w) x
  rw [hstore] at hidentified
  refine .ask rfl ?_
  show Ends C ((Action.identify x).bind fun y =>
    (Action.complete dest y).bind fun _ => .done (.leaf 0 y)) w _
  refine .hosted hC hidentified ⟨hn, rfl⟩ fun u hu hlater => ?_
  refine .hosted (a := Action.complete dest _) hC (.write (.done () _)) ⟨Nat.le_refl _, rfl⟩
    fun z hz hlater' => .done ⟨⟨_, rfl⟩, ?_⟩
  rw [hu] at hz
  have hspares : (S.store w).agendas = (S.store z).agendas := by rw [hz]; rfl
  have hresults : (S.store z).completed[dest]? = some (vs ++ [((S.store w).identify x).1]) := by
    rw [hz]
    simp [Store.tagsFrom, Array.getElem?_modify, hvs]
  refine {
    agenda := ?_, results := ⟨_, hresults, ?_⟩, pending := h.pending
    carries := fun y hy => (h.carries y hy).later (C.trans hlater hlater'), sorted := ?_, past := ?_ }
  · rw [← hspares]
    exact h.agenda
  · rw [List.map_append, List.map_singleton, S.see_identify, hsee, Books.reach, List.map_append]
    rfl
  · refine List.pairwise_append.2 ⟨h.sorted, List.pairwise_singleton _ _, fun y hy v hv => ?_⟩
    rw [List.mem_singleton.1 hv]
    exact h.past y hy
  · intro y hy
    rcases List.mem_append.1 hy with hy | hy
    · exact h.past y hy
    · rw [List.mem_singleton.1 hy]

/-- Scheduling a callback books its plan, at the time after the delay. -/
theorem book (h : b.Sound C address dest w now) (hC : C.Hosts) {delay resume answer : Value}
    {arguments : List Value} {d : Number} {p : Plan V} {k : Value → Action Value}
    {Q : S.World → Ending → Prop} (hd : delay.number? = some d)
    (hdelay : TimeDomain.doubles.Delay d) (hless : d.less (.int 0) = false)
    (harguments : arguments = [answer] ∨ arguments = [] ∧ answer = .nothing)
    (hcontinues : Continues C p resume answer w) (htimely : p.Timely)
    (hk : ∀ u task, C.Later w u → task.time = now.after d →
      (b.book d task p).Sound C address dest u now → Ends C (k .nothing) u Q) :
    Ends C ((Host.callLaterOnAgenda address delay (wakeup address dest resume) arguments).bind k) w
      Q := by
  obtain ⟨a, ha, hledger, hlimit, hnow⟩ := h.agenda
  have hdue : now.add d = .ok (now.after d) := by
    obtain ⟨due, hdue⟩ := TimeDomain.doubles_add h.mem hdelay
    rw [Number.after, hdue]
    rfl
  obtain ⟨timeTag, n, records, hn, htr⟩ :=
    traced_callLater (s := S.store w) (wakeup address dest resume, arguments) hd hless ha hnow hdue
  refine .hosted hC htr ⟨hn, rfl⟩ fun u hu hlater => ?_
  have hagenda : (S.store u).agendas[address]? =
      some (a.schedule (now.after d) timeTag (wakeup address dest resume) arguments) := by
    rw [hu]
    exact Array.getElem?_setIfInBounds_self.trans (if_pos (Array.getElem?_eq_some_iff.1 ha).1)
  refine hk u _ hlater rfl {
    agenda := ⟨_, hagenda, hledger.scheduled timeTag _ arguments hnow hdelay hless hdue, hlimit, hnow⟩
    results := ?_, pending := ?_, carries := ?_, sorted := h.sorted, past := h.past }
  · rw [hu]
    exact h.results
  · simp only [Books.book, List.map_append, List.map_singleton, pending_concat, Happening.leaves]
    exact h.pending.append_right _
  · intro x hx
    rcases List.mem_append.1 hx with hx | hx
    · exact (h.carries x hx).later hlater
    · rw [List.mem_singleton.1 hx]
      exact Task.Carries.later ⟨resume, answer, rfl, harguments, hcontinues, htimely⟩ hlater

end Books.Sound

section Turning

variable {address dest : Nat} {w u : S.World} {Q : S.World → Ending → Prop}

/-- The run has ended as a leaf, and so. -/
def AtLeaf (Q : S.World → Prop) (w : S.World) (e : Ending) : Prop := (∃ tag x, e = .ok (.leaf tag x)) ∧ Q w

/-- Evaluates a flow that notes its value at the end, under the handler that suspends it. -/
def Turning (C : Course S) (address dest : Nat) (v : Value) (w : S.World) (Q : S.World → Prop) : Prop :=
  Ends C (Program.graft v (.arrowOf (.recordIn dest))) w fun z e => ∃ q, e = .ok q ∧
    Ends C (Handler.evaluate (suspensionTable (.agenda address)) none q) z (AtLeaf Q)

/-- The host calls a suspended flow back, and the flow takes a turn. -/
theorem ends_wakeup {Q : S.World → Prop} {p : Plan V} {resume answer : Value} {arguments : List Value}
    (harguments : arguments = [answer] ∨ arguments = [] ∧ answer = .nothing)
    (hcontinues : Continues C p resume answer w)
    (hturn : ∀ z v, C.Later w z → (S.store w).Spares (S.store z) → Goes C p z (.ok v) →
      Turning C address dest v z Q) :
    Ends C (Action.ask (wakeup address dest resume) arguments) w (AtLeaf Q) := by
  have hresumed : Ends C (Action.ask (.arrowOf (.under (suspensionTable (.agenda address)) none
      (.arrowOf (.grafted resume (.arrowOf (.recordIn dest)))))) [answer]) w (AtLeaf Q) := by
    refine .ask rfl (.bind_silent (.ask rfl (.bind_silent
      ((hcontinues w (C.refl w)).of_sparing.mono fun z e hz h => ?_))))
    obtain ⟨hspares, hgoes⟩ := h
    obtain ⟨v, rfl⟩ := hgoes.exists_ok
    exact ⟨v, rfl, hturn z v hz hspares hgoes⟩
  have hchecked : Ends C ((Action.ask (.arrowOf (.under (suspensionTable (.agenda address)) none
      (.arrowOf (.grafted resume (.arrowOf (.recordIn dest)))))) [answer]).bind
        Suspension.ensureHandled) w (AtLeaf Q) := by
    refine .bind_silent (hresumed.mono fun z e _ h => ?_)
    obtain ⟨⟨tag, x, rfl⟩, hQ⟩ := h
    exact ⟨_, rfl, .done ⟨⟨tag, x, rfl⟩, hQ⟩⟩
  refine .ask rfl ?_
  rcases harguments with rfl | ⟨rfl, rfl⟩ <;> exact hchecked

/-- A flow is suspended: the function that it is suspended with is called with its continuation and
the host, and the turn is over. -/
theorem turning_suspend {Q : S.World → Prop} {tag own : Nat} {f : Function} {resume : Value}
    (h : Ends C (f.apply (.of [wakeup address dest resume, .agenda address])) w fun z e =>
      (∃ x, e = .ok x) ∧ Q z) :
    Turning C address dest (.operation tag suspendName [.function own f] resume) w Q := by
  refine .done ⟨_, rfl, ?_⟩
  rw [Handler.evaluate_handled rfl rfl]
  refine (Tells.build rfl rfl ?_).mono fun _ _ _ h => h.holds
  refine .bind_silent (.invoke rfl (h.mono fun z e _ hz => ?_))
  obtain ⟨⟨x, rfl⟩, hQ⟩ := hz
  exact ⟨x, rfl, .done ⟨_, rfl, rfl, ⟨_, _, rfl⟩, hQ⟩⟩

theorem Plan.Timely.left {t f : Plan V} (h : (Plan.fork t f).Timely) : t.Timely := fun d hd =>
  h d (List.mem_append_left _ hd)

theorem Plan.Timely.right {t f : Plan V} (h : (Plan.fork t f).Timely) : f.Timely := fun d hd =>
  h d (List.mem_append_right _ hd)

/-- A turn of a flow adds to the books what its plan finishes. -/
theorem Books.Sound.turn {b : Books V} {p : Plan V} {now : Number} {v : Value}
    (h : b.Sound C address dest w now) (hC : C.Hosts) (hp : Goes C p w (.ok v)) (htimely : p.Timely) :
    Turning C address dest v w fun z => ∃ b' : Books V, b'.Sound C address dest z now ∧
      b'.total.Perm (b.total ++ p.finishes now) ∧ b'.size < b.size + p.size := by
  induction p generalizing b w v with
  | leaf l =>
    cases hp with
    | leaf hlift hfit =>
      refine .graft_of_leaf hlift rfl ((h.reach hC).mono fun z e _ hz => ?_)
      obtain ⟨⟨y, rfl⟩, hsound⟩ := hz
      refine ⟨_, rfl, _, rfl, ?_⟩
      rw [Handler.evaluate_leaf rfl]
      exact .done ⟨⟨_, _, rfl⟩, _, hsound, b.total_reach now _, Nat.lt_succ_self _⟩
  | exit =>
    obtain ⟨tag, own, resume, he⟩ := hp
    cases he
    refine turning_suspend (.done ⟨⟨_, rfl⟩, b, h, ?_, Nat.lt_succ_self _⟩)
    rw [Plan.finishes, List.append_nil]
  | wait d p ih =>
    obtain ⟨tag, own, x, resume, he, hx, hcontinues⟩ := hp
    cases he
    obtain ⟨hdelay, hless⟩ := htimely d List.mem_cons_self
    refine turning_suspend ?_
    show Ends C (Host.callLaterOnAgenda address x (wakeup address dest resume) []) w _
    rw [← Action.bind_done (Host.callLaterOnAgenda address x (wakeup address dest resume) [])]
    refine h.book hC hx hdelay hless (.inr ⟨rfl, rfl⟩) hcontinues
      (fun d hd => htimely d (List.mem_cons_of_mem _ hd)) fun u task _ htime hsound =>
        .done ⟨⟨_, rfl⟩, _, hsound, ?_, ?_⟩
    · rw [b.total_book, htime]
      exact .refl _
    · rw [b.size_book]
      exact Nat.lt_succ_self _
  | fork t f iht ihf =>
    obtain ⟨tag, own, resume, he, htrue, hfalse⟩ := hp
    cases he
    obtain ⟨hsoon, hless⟩ := TimeDomain.doubles_soon
    refine turning_suspend ?_
    show Ends C ((Host.callLaterOnAgenda address (.float 0 0) (wakeup address dest resume)
      [.bool true]).bind fun _ => (Action.ask (wakeup address dest resume) [.bool false]).bind
        fun _ => .done .nothing) w _
    refine h.book hC rfl hsoon hless (.inl rfl) htrue htimely.left fun u task hu htime hsound => ?_
    -- The other flow goes on at once, inside the turn of this one.
    have hnext : Ends C (Action.ask (wakeup address dest resume) [.bool false]) u
        (AtLeaf fun z => ∃ b' : Books V, b'.Sound C address dest z now ∧
          b'.total.Perm ((b.book (.float 0) task t).total ++ f.finishes now) ∧
          b'.size < (b.book (.float 0) task t).size + f.size) := by
      refine ends_wakeup (.inl rfl) (fun z hz => hfalse z (C.trans hu hz)) fun z v hz hspares hgoes => ?_
      exact ihf (hsound.spared hz hspares) hgoes htimely.right
    refine .bind_silent (hnext.mono fun z e _ hz => ?_)
    obtain ⟨⟨tag, x, rfl⟩, b', hsound', htotal, hsize⟩ := hz
    refine ⟨_, rfl, .done ⟨⟨_, rfl⟩, b', hsound', ?_, ?_⟩⟩
    · rw [b.total_book, htime, List.append_assoc] at htotal
      exact htotal
    · rw [b.size_book] at hsize
      rw [Plan.size]
      omega

end Turning

end AlgebraicEffects
