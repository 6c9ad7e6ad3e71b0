import AlgebraicEffects.Proofs.Agreement.Hosting
import AlgebraicEffects.Proofs.Agreement.Queues
import AlgebraicEffects.Proofs.Schedule.Runs

/-!
An agenda is a timetable.

The tasks of an agenda, in the order in which they are taken, are the queue of a timetable
(`Agenda.Shows`). So a run of the agenda takes the turns that the timetable takes (`tells_draining`).
-/

set_option autoImplicit false

namespace AlgebraicEffects

open Action (Traced)
open Doubles (IsTime rank)

variable {V : Type} {S : Scene V} {C : Course S} {L : Listener} {base dest address : Nat} {sink : Value}

section Reading

/-- The clock shows the time of the timetable, and the tasks are those of its queue, with their plays. -/
structure Agenda.Shows (R : Task → Play V → Prop) (a : Agenda) (k : Timetable V) : Prop where
  clock : a.currentTime.number? = some (.float k.now)
  time : IsTime k.now
  limit : a.maxSteps = .nothing
  tasks : ∃ entries : List (Task × Play V),
    Lists Task.due Task.sequence a.queue (entries.map Prod.fst) ∧
    (entries.map fun x => (x.1.due, x.2)) = k.queue ∧
    ∀ x ∈ entries, (x.1.time = .float x.1.due ∧ IsTime x.1.due) ∧ x.1.sequence < a.sequenceCounter ∧
      R x.1 x.2

namespace Agenda.Shows

variable {R Q : Task → Play V → Prop} {a : Agenda} {k : Timetable V} {p : Play V}

theorem mono (h : a.Shows R k) (hR : ∀ t p, R t p → Q t p) : a.Shows Q k := by
  obtain ⟨entries, hlists, hqueue, hentries⟩ := h.tasks
  exact { h with
    tasks := ⟨entries, hlists, hqueue, fun x hx =>
      ⟨(hentries x hx).1, (hentries x hx).2.1, hR _ _ (hentries x hx).2.2⟩⟩ }

theorem starting {startTime : Value} (h : startTime.number? = some (.float 0)) :
    (Agenda.starting startTime .nothing).Shows R Timetable.start where
  clock := h
  time := .zero
  limit := rfl
  tasks := ⟨[], .empty, rfl, fun _ hx => absurd hx List.not_mem_nil⟩

/-- A task that is scheduled is placed into the queue. -/
theorem schedule (h : a.Shows R k) {d : Number} (hp : (Play.wait d p).Timely) (timeTag : Nat)
    (callback : Value) (arguments : List Value)
    (hR : R ⟨.float (dueAfter k.now d), timeTag, a.sequenceCounter, callback, arguments⟩ p) :
    (a.schedule (.float (dueAfter k.now d)) timeTag callback arguments).Shows R (k.after d p) := by
  obtain ⟨entries, hlists, hqueue, hentries⟩ := h.tasks
  generalize htask : Task.mk (.float (dueAfter k.now d)) timeTag a.sequenceCounter callback arguments =
    task at hR
  have hdue : task.time = .float task.due ∧ IsTime task.due := by
    rw [← htask]
    exact ⟨rfl, (isTime_dueAfter h.time hp.1.1 hp.1.2).1⟩
  have hsequence : task.sequence = a.sequenceCounter := by rw [← htask]
  refine { h with tasks := ⟨place (fun x => x.1.due) (task, p) entries, ?_, ?_, fun x hx => ?_⟩ }
  · have hmap : (place (fun x : Task × Play V => x.1.due) (task, p) entries).map Prod.fst =
        place Task.due task (entries.map Prod.fst) := map_place Prod.fst Task.due (fun _ => rfl) entries
    have hpush := hlists.push goesBy_task hdue
      (fun y hy => by
        obtain ⟨x, hx, rfl⟩ := List.mem_map.1 hy
        exact (hentries x hx).1)
      (fun y hy => by
        obtain ⟨x, hx, rfl⟩ := List.mem_map.1 hy
        rw [hsequence]
        exact (hentries x hx).2.1)
    rw [hmap]
    rw [← htask] at hpush ⊢
    exact hpush
  · have hmap : (place (fun x : Task × Play V => x.1.due) (task, p) entries).map
          (fun x => (x.1.due, x.2)) =
        place Prod.fst (task.due, p) (entries.map fun x => (x.1.due, x.2)) :=
      map_place (fun x : Task × Play V => (x.1.due, x.2)) Prod.fst (fun _ => rfl) entries
    rw [hmap, hqueue, ← htask]
    rfl
  · rcases List.mem_cons.1 ((place_perm _ _ _).mem_iff.1 hx) with rfl | hx
    · refine ⟨hdue, ?_, hR⟩
      rw [hsequence]
      exact Nat.lt_succ_self _
    · exact ⟨(hentries x hx).1, Nat.lt_succ_of_lt (hentries x hx).2.1, (hentries x hx).2.2⟩

theorem pop_none (h : a.Shows R k) (hnil : k.queue = []) : a.pop? = none := by
  obtain ⟨entries, hlists, hqueue, -⟩ := h.tasks
  obtain rfl := List.map_eq_nil_iff.1 (hqueue.trans hnil)
  unfold Agenda.pop?
  rw [hlists.pop_nil]

/-- The task that is taken goes on with the play at the front of the queue. -/
theorem pop {t : Float} {rest : List (Float × Play V)} (h : a.Shows R k) (hcons : k.queue = (t, p) :: rest) :
    ∃ task next, a.pop? = some (task, next) ∧ R task p ∧ next.Shows R ⟨t, rest⟩ := by
  obtain ⟨entries, hlists, hqueue, hentries⟩ := h.tasks
  have hmembers : ∀ y ∈ entries.map Prod.fst, y.time = .float y.due ∧ IsTime y.due := by
    intro y hy
    obtain ⟨x, hx, rfl⟩ := List.mem_map.1 hy
    exact (hentries x hx).1
  obtain ⟨⟨task, q⟩, others, rfl, hhead, hrest⟩ := List.map_eq_cons_iff.1 (hqueue.trans hcons)
  cases hhead
  obtain ⟨queue, hpop, hleft⟩ := hlists.pop goesBy_task hmembers
  obtain ⟨⟨htime, hdue⟩, -, hR⟩ := hentries _ List.mem_cons_self
  refine ⟨task, { a with queue := queue, currentTime := task.dueTime, steps := a.steps + 1 }, ?_, hR, {
    clock := ?_, time := hdue, limit := h.limit
    tasks := ⟨others, hleft, hrest, fun x hx => hentries x (List.mem_cons_of_mem _ hx)⟩ }⟩
  · unfold Agenda.pop?
    rw [hpop]
  · show task.dueTime.number? = _
    unfold Task.dueTime
    rw [htime]
    rfl

end Agenda.Shows

end Reading

section Keeping

/-- The agenda at the address is this timetable, and its tasks revive flows. -/
def KeepsTimetable (C : Course S) (L : Listener) (base dest address : Nat) (sink : Value)
    (tags : List Nat) (w : S.World) (k : Timetable V) : Prop :=
  ∃ a, (S.store w).agendas[address]? = some a ∧ a.Shows
    (fun t p => Revives C L base dest (.agenda address) sink tags w t.callback t.arguments p) k

/-- An agenda is a host that keeps a timetable. -/
def Hosting.agenda (C : Course S) (L : Listener) (base dest address : Nat) (sink : Value) :
    Hosting C L base dest (.agenda address) sink (Timetable.keeper (V := V)) :=
  have hafter {tags : List Nat} {w : S.World} {k : Timetable V} {callback delay : Value}
      {arguments : List Value} {d : Number} {p : Play V}
      (h : KeepsTimetable C L base dest address sink tags w k) (hd : delay.number? = some d)
      (hp : (Play.wait d p).Timely)
      (hrevives : Revives C L base dest (.agenda address) sink tags w callback arguments p) :
      ∃ x t, Traced (Host.callLaterOnAgenda address delay callback arguments) (S.store w) [] (.ok x) t ∧
        (S.store w).Registers t ∧
        ∀ u, S.store u = t → C.Later w u →
          KeepsTimetable C L base dest address sink tags u (k.after d p) := by
    obtain ⟨a, ha, hshows⟩ := h
    obtain ⟨y, hy, -⟩ := hp.1.1
    have hdue : (Number.float k.now).add d = .ok (.float (dueAfter k.now d)) := by
      rw [Number.float_add hy, dueAfter, hy]
    obtain ⟨timeTag, n, records, hn, htr⟩ :=
      traced_callLater (callback, arguments) hd hp.1.2 ha hshows.clock hdue
    refine ⟨_, _, htr, ⟨hn, rfl⟩, fun u hu hlater => ⟨_, ?_, (hshows.schedule hp timeTag callback arguments
      hrevives).mono fun t p ht => ht.later hlater⟩⟩
    rw [hu]
    exact Array.getElem?_setIfInBounds_self.trans (if_pos (Array.getElem?_eq_some_iff.1 ha).1)
  { Keeps := KeepsTimetable C L base dest address sink
    later := fun ⟨a, ha, hshows⟩ hu hleaves =>
      ⟨a, hleaves.agendas ha, hshows.mono fun _ _ ht => ht.later hu⟩
    longer := fun ⟨a, ha, hshows⟩ htags => ⟨a, ha, hshows.mono fun _ _ ht => ht.longer htags⟩
    soon := fun h hrevives => hafter h rfl ⟨TimeDomain.doubles_soon, hrevives.timely⟩ hrevives
    after := hafter }

end Keeping

end AlgebraicEffects
