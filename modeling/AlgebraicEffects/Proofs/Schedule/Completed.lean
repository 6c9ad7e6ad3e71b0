import AlgebraicEffects.Proofs.Schedule.Runs

/-!
Flows are neither lost nor duplicated.

A run on a new scheduler without a limit ends with an empty queue, and its values are those at the ends
of the flows that do not exit, in the order of the times at which they are reached
(`runScheduled_completes`). This needs that every delay has a nearest double: an integer beyond the
greatest double has none, and waiting for so long fails (`runScheduled_waiting_beyond`).
-/

set_option autoImplicit false

namespace AlgebraicEffects

open Action (Traced)

variable {V : Type} {S : Scene V} {C : Course S}

/-- The scheduler that a run is given is a new one without a limit, or none is given. Its clock shows
a double, zero by default. -/
inductive Fresh (s : Store) : Value → Number → Prop where
  | default : Fresh s .nothing (.float 0)
  | given {address : Nat} {startTime : Value} {start : Number} :
      s.agendas[address]? = some (.starting startTime .nothing) → startTime.number? = some start →
      TimeDomain.doubles.Mem start → Fresh s (.agenda address) start

/-- The first of the values is the result; without one there is none. -/
inductive Settled : List Value → Value → Prop where
  | first (v : Value) (vs : List Value) : Settled (v :: vs) (.ok 0 v)
  | none (tag : Nat) : Settled [] (.err 0 (.failure (.caught tag .noResult)))

section Hosting

variable {s : Store} {scheduler : Value} {start : Number}

/-- The agenda of the run, which is made if none is given. -/
theorem Fresh.exists_host (h : Fresh s scheduler start) :
    ∃ given address startTime t, Traced (Action.truth scheduler) s [] (.ok given) s ∧
      Traced (if given then pure scheduler else Host.newAgenda (.float 0 0) .nothing) s []
        (.ok (.agenda address)) t ∧ s.Beside t ∧
      t.agendas[address]? = some (.starting startTime .nothing) ∧ startTime.number? = some start ∧
      TimeDomain.doubles.Mem start ∧ ∀ own, scheduler = .agenda own → own = address := by
  cases h with
  | default =>
    refine ⟨false, _, _, _, .done _ _, .read (.write (.read (.write (.done _ _)))),
      ⟨Nat.le_succ _, rfl⟩,
      Array.getElem?_push_size, rfl, TimeDomain.mem_zero, nofun⟩
  | given hagenda hstart hmem =>
    exact ⟨true, _, _, s, .done _ _, .done _ _, ⟨Nat.le_refl _, rfl⟩, hagenda, hstart, hmem,
      fun own h => by cases h; rfl⟩

end Hosting

section Outcomes

variable {s : Store} {address dest : Nat} {vs : List Value}

/-- The outcome of a run whose flows have all ended. -/
theorem traced_outcome (vs : List Value) (s : Store) : ∃ result n, Settled vs result ∧ s.nextTag ≤ n ∧
    Traced (Run.settle vs) s [] (.ok (.outcome 0 result (.tuple 0 vs))) (s.tagsFrom n) := by
  cases vs with
  | nil => exact ⟨_, _, .none s.nextTag, Nat.le_succ _, .read (.write (.done _ _))⟩
  | cons v vs => exact ⟨_, s.nextTag, .first v vs, Nat.le_refl _, .done _ _⟩

/-- The end of a run whose agenda has been run: what was done is reported, and the results settle. -/
theorem traced_concluded {a : Agenda} (ha : s.agendas[address]? = some a)
    (hvs : s.completed[dest]? = some vs) (executed : Value) :
    ∃ result n records, Settled vs result ∧ s.nextTag ≤ n ∧ Traced (do
        let count ← Action.shown executed
        let now ← Action.shown (← Host.time (.agenda address))
        Run.debug ("scheduler drained after " ++ count.plain ++ " tasks at t=" ++ now.plain)
        Run.settle (← Run.completedAt dest)) s []
      (.ok (.outcome 0 result (.tuple 0 vs))) { s.tagsFrom n with records := records } := by
  have hshown (v : Value) : Traced (Action.shown v) s [] (.ok (s.show v)) s := .read (.done _ _)
  have htime : Traced (Host.time (.agenda address)) s [] (.ok a.currentTime) s :=
    (traced_agendaAt ha).bind (.done _ _)
  let reported : Store := { s with
    records := ⟨"DEBUG", Run.logComponent, "scheduler drained after " ++ (s.show executed).plain ++
      " tasks at t=" ++ (s.show a.currentTime).plain⟩ :: s.records }
  have hcompleted : reported.completedAt dest = vs := by
    simp [reported, Store.completedAt, Array.getD_eq_getD_getElem?, hvs]
  obtain ⟨result, n, hsettled, hn, hsettle⟩ := traced_outcome vs reported
  refine ⟨result, n, reported.records, hsettled, hn,
    (hshown executed).bind (htime.bind ((hshown _).bind (.write (.read ?_))))⟩
  show Traced (Run.settle (reported.completedAt dest)) reported [] _ _
  rw [hcompleted]
  exact hsettle

end Outcomes

/-- Running a program that waits, forks and exits as planned, by delays that are not negative and have
a nearest double, on a new scheduler: the queue is empty at the end, and the values are those at the
ends of the flows that do not exit, each once, in the order of the times at which they are reached. The
first of them is the result, and there is none exactly when there is no such flow. -/
theorem runScheduled_completes (hC : C.Hosts) {w : S.World} {p : Plan V} {program scheduler : Value}
    {start : Number} (hp : Goes C p w (.ok program)) (htimely : p.Timely)
    (hfresh : Fresh (S.store w) scheduler start) :
    ∃ cs result values z address a, ∃ finished : List (Number × V),
      Traced (Run.runScheduled program (.tuple 0 []) scheduler .nothing) (S.store w) cs
        (.ok (.outcome 0 result (.tuple 0 values))) (S.store z) ∧ C.Later w z ∧
      (∀ own, scheduler = .agenda own → own = address) ∧
      (S.store z).agendas[address]? = some a ∧ a.queue.toList = [] ∧
      finished.Perm (p.finishes start) ∧
      finished.Pairwise (fun x y => TimeDomain.doubles.rank x.1 ≤ TimeDomain.doubles.rank y.1) ∧
      values.map S.see = finished.map Prod.snd ∧ (values.map S.see).Perm p.leaves ∧
      Settled values result ∧ (values = [] ↔ p.leaves = []) := by
  obtain ⟨given, address, startTime, t, hgiven, hhost, hbeside, hagenda, hstart, hmem, hown⟩ := hfresh.exists_host
  -- The list of results is made after the agenda.
  obtain ⟨u, hu, hlater⟩ := hC w { t with completed := t.completed.push [] } ⟨hbeside.later, by rw [hbeside.same]⟩
  have hsound : Books.Sound C address t.completed.size (⟨[], [], []⟩ : Books V) u start := {
    agenda := ⟨_, by rw [hu]; exact hagenda, .starting hstart hmem, rfl, hstart⟩
    results := ⟨[], by rw [hu]; exact Array.getElem?_push_size, rfl⟩
    pending := .nil
    carries := fun x hx => absurd hx List.not_mem_nil
    sorted := .nil
    past := fun x hx => absurd hx List.not_mem_nil }
  obtain ⟨cs, _, z, htr, hz, -, ⟨n, rfl⟩, b, ⟨now, hb⟩, hfinished, a, ha, hqueue⟩ :=
    hsound.run hC (hp.later hlater) htimely
  rw [hu] at htr
  obtain ⟨vs, hvs, hsee⟩ := hb.results
  obtain ⟨result, n', records, hsettled, hn, hconcluded⟩ := traced_concluded ha hvs (.int n)
  have hrun : Traced (Run.runScheduled program (.tuple 0 []) scheduler .nothing) (S.store w) (cs ++ [])
      (.ok (.outcome 0 result (.tuple 0 vs)))
      { (S.store z).tagsFrom n' with records := records } := by
    refine hgiven.bind ?_
    cases given with
    | true =>
      simp only [if_true] at hhost ⊢
      exact hhost.bind (.read (.write (htr.attempt.bind hconcluded)))
    | false =>
      simp only [if_false, Bool.false_eq_true] at hhost ⊢
      exact hhost.bind (.read (.write (htr.attempt.bind hconcluded)))
  obtain ⟨z', hz', hlater'⟩ := hC z { (S.store z).tagsFrom n' with records := records } ⟨hn, rfl⟩
  rw [← hz'] at hrun
  have hleaves : (vs.map S.see).Perm p.leaves := by
    rw [hsee, ← p.map_finishes start]
    exact hfinished.map Prod.snd
  have hnothing : vs = [] ↔ p.leaves = [] := by
    rw [← List.map_eq_nil_iff (f := S.see)]
    exact ⟨fun h => (h ▸ hleaves).nil_eq.symm, fun h => (h ▸ hleaves).eq_nil⟩
  exact ⟨_, result, vs, z', address, a, b.finished, hrun, C.trans (C.trans hlater hz) hlater', hown,
    hz' ▸ ha, hqueue, hfinished, hb.sorted, hsee, hleaves, hsettled, hnothing⟩

section Instances

open Suspension (suspendName)

/-- Waits five units of time before it goes on with one. -/
def waiting : Value :=
  .operation 0 suspendName [.arrowOf (.waitStart (.int 5))]
    (.arrowOf (.grafted (.arrowOf .leaf) (.arrowOf (.constant (.leaf 0 (.int 1))))))

/-- Forks into a flow that waits and one that goes on with two at once. -/
def parting : Value :=
  .operation 0 suspendName [.arrowOf .forkStart]
    (.arrowOf (.grafted (.arrowOf .leaf) (.arrowOf (.chosen waiting (.leaf 0 (.int 2))))))

/-- How it goes on. -/
def partingPlan : Plan Shape := .fork (.wait (.int 5) (.leaf (.int 1))) (.leaf (.int 2))

theorem goes_parting (s : Store) : Goes Course.shapes partingPlan s (.ok parting) := by
  have hleaf (n : Int) (u : Store) : Goes Course.shapes (.leaf (.int n)) u (.ok (.leaf 0 (.int n))) :=
    Scene.Shows.leaf (S := Scene.shapes) (v := .leaf 0 (.int n)) rfl trivial
  have hwaiting (u : Store) : Goes Course.shapes (.wait (.int 5) (.leaf (.int 1))) u (.ok waiting) :=
    ⟨_, _, _, _, rfl, rfl, continues_grafted (C := Course.shapes) rfl fun u _ =>
      .ask rfl (.done (hleaf 1 u))⟩
  exact ⟨_, _, _, rfl,
    continues_grafted (C := Course.shapes) rfl fun u _ => .ask rfl (.done (hwaiting u)),
    continues_grafted (C := Course.shapes) rfl fun u _ => .ask rfl (.done (hleaf 2 u))⟩

theorem timely_parting : partingPlan.Timely := by
  have hdelays : partingPlan.delays = [.int 5] := rfl
  rw [Plan.Timely, hdelays, List.forall_mem_singleton]
  exact ⟨TimeDomain.delay_int (by decide +kernel) (by decide +kernel), by decide⟩

theorem runScheduled_completes_parting :
    Goes Course.shapes partingPlan Store.empty (.ok parting) ∧ partingPlan.Timely ∧
      ∃ cs result values t,
        Traced (Run.runScheduled parting (.tuple 0 []) .nothing .nothing) Store.empty cs
          (.ok (.outcome 0 result (.tuple 0 values))) t ∧ (values.map Value.shape).Perm [.int 1, .int 2] := by
  obtain ⟨cs, result, values, t, _, _, _, hrun, -, -, -, -, -, -, -, hleaves, -⟩ :=
    runScheduled_completes Course.hosts_shapes (goes_parting Store.empty) timely_parting .default
  exact ⟨goes_parting _, timely_parting, cs, result, values, t, hrun, hleaves⟩

/-- Waits longer than the greatest double. -/
def waitingBeyond : Value := .bare suspendName [.arrowOf (.waitStart (.int (10 ^ 400)))]

/-- Whether a run has failed before any value was reached, because a number was too great. -/
def overflows : Option (Ending × Store) → Bool
  | some (.ok (.outcome _ (.err _ (.failure (.caught _ (.fault .overflow)))) (.tuple _ [])), _) => true
  | _ => false

theorem exists_of_overflows {o : Option (Ending × Store)} (h : overflows o = true) :
    ∃ a b c d t, o = some
      (.ok (.outcome a (.err b (.failure (.caught c (.fault .overflow)))) (.tuple d [])), t) := by
  unfold overflows at h
  split at h
  · exact ⟨_, _, _, _, _, rfl⟩
  · cases h

/-- A delay that has no nearest double is not waited for: the run fails, and its flow is lost. -/
theorem runScheduled_waiting_beyond :
    (Number.int (10 ^ 400)).less (.int 0) = false ∧
      Traced (Suspension.wait (.int (10 ^ 400))) Store.empty [] (.ok waitingBeyond) Store.empty ∧
      Goes Course.shapes (.wait (.int (10 ^ 400)) (.leaf .nothing)) Store.empty (.ok waitingBeyond) ∧
      ∃ a b c d t, Action.Runs Value.apply
        (Run.runScheduled waitingBeyond (.tuple 0 []) .nothing .nothing) Store.empty
        (.ok (.outcome a (.err b (.failure (.caught c (.fault .overflow)))) (.tuple d []))) t := by
  have hless : (Number.int (10 ^ 400)).less (.int 0) = false := by
    rw [Number.less, Number.compare?_int, compare_gt_iff_gt.2 (Int.pow_pos (by decide))]
    rfl
  refine ⟨hless, traced_wait rfl hless _, ⟨_, _, _, _, rfl, rfl, fun u _ =>
    .ask rfl (.done (Scene.Shows.leaf (S := Scene.shapes) (v := .leaf 0 .nothing) rfl trivial))⟩, ?_⟩
  have hruns : overflows (Action.run Value.apply 200
      (Run.runScheduled waitingBeyond (.tuple 0 []) .nothing .nothing) [] .empty) = true := by
    decide +kernel
  obtain ⟨a, b, c, d, t, hrun⟩ := exists_of_overflows hruns
  exact ⟨a, b, c, d, t, Action.exists_run_iff.1 ⟨200, hrun⟩⟩

end Instances

end AlgebraicEffects
