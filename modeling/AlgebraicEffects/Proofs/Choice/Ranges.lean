import AlgebraicEffects.Proofs.Choice.Search
import AlgebraicEffects.Proofs.Showing
import Mathlib.Data.Int.Range

/-!
Choosing from a range of integers.

A range is chosen from by deciding for its first integer or against it, so the choices of a range are
unfolded only as far as decisions are answered. The program for a range (`Ranging`) fails when the range
is empty, and otherwise decides; answered with false, it goes on as the program for the rest. So it offers
the integers of the range in ascending order (`Ranging.offers`).
-/

set_option autoImplicit false

namespace AlgebraicEffects

open Action (Traced)
open Choice (decideName failName)

/-- The choices of so many integers from here on, in ascending order, and then a failure. -/
def Choices.ascending (low : Int) : Nat → Choices Shape
  | 0 => .fail
  | n + 1 => .decide (.leaf (.int low)) (ascending (low + 1) n)

/-- The choices of the integers between two bounds. -/
def Choices.between (low high : Int) : Choices Shape := ascending low (high + 1 - low).toNat

namespace Choices

theorem messages_ascending (low : Int) (n : Nat) : (ascending low n).messages = [] := by
  induction n generalizing low with
  | zero => rfl
  | succ n ih => exact ih (low + 1)

theorem solutions_ascending (low : Int) (n : Nat) :
    (ascending low n).solutions = (List.range n).map fun i : Nat => Shape.int (low + i) := by
  induction n generalizing low with
  | zero => rfl
  | succ n ih =>
    rw [List.range_succ_eq_map, List.map_cons, List.map_map, ascending, solutions, ih]
    refine congrArg₂ List.cons (by simp) (List.map_congr_left fun i _ => ?_)
    rw [Int.add_assoc, Int.add_comm 1]
    rfl

theorem solutions_between (low high : Int) :
    (between low high).solutions = (Int.range low (high + 1)).map Shape.int := by
  rw [between, solutions_ascending, Int.range, List.map_map]
  rfl

end Choices

variable {L : Listener} {low high : Int} {p : Value}

/-- The program that chooses between two bounds. -/
inductive Ranging (low high : Int) : Value → Prop where
  | empty {tag : Nat} {resume : Value} :
      high < low → Ranging low high (.operation tag failName [] resume)
  | more {tag own : Nat} : low ≤ high → Ranging low high (.operation tag decideName []
      (.function own (.grafted (.arrowOf .leaf) (.arrowOf (.chosenIn (.int low) (.int high))))))

/-- It stays such a program when a script first sees it. -/
theorem Ranging.identify (h : Ranging low high p) (s : Store) :
    Ranging low high (s.identify p).1 := by
  unfold Store.identify
  split
  · exact h
  · cases h with
    | @empty tag resume hlt =>
      cases tag with
      | zero => exact .empty hlt
      | succ n => exact .empty hlt
    | @more tag own hle =>
      cases tag with
      | zero => cases own <;> exact .more hle
      | succ n => exact .more hle

namespace Choice

theorem exists_chooseIn (low high : Int) (s : Store) :
    ∃ p, Traced (chooseIn (.int low) (.int high)) s [] (.ok p) s ∧ Ranging low high p := by
  have hless := Value.traced_less_integers (x := .int high) (y := .int low) rfl rfl s
  by_cases hlt : high < low
  · rw [decide_eq_true hlt] at hless
    exact ⟨fail, hless.bind (.done _ _), .empty hlt⟩
  · rw [decide_eq_false hlt] at hless
    exact ⟨_, hless.bind (.done _ _), .more (Int.not_lt.1 hlt)⟩

end Choice

/-- The program that chooses between two bounds offers the integers between them. -/
theorem Ranging.offers (h : Ranging low high p) (w : Store) :
    Offers Course.shapes L (.between low high) w (.ok p) := by
  unfold Choices.between
  generalize hn : (high + 1 - low).toNat = n
  induction n generalizing low p w with
  | zero =>
    cases h with
    | empty => exact ⟨_, _, rfl⟩
    | more hle => omega
  | succ n ih =>
    cases h with
    | empty hlt => omega
    | @more tag own hle =>
      -- what follows the answer is looked at when there is one
      have hanswered {c : Choices Shape} {b : Bool} {u : Store}
          (hbody : Tells Course.shapes L ((Function.chosenIn (.int low) (.int high)).apply
            (.of [.bool b])) u [] fun z e => ∃ v, e = .ok v ∧ Offers Course.shapes L c z (.ok v)) :
          Tells Course.shapes L (Action.ask (.function own (.grafted (.arrowOf .leaf)
            (.arrowOf (.chosenIn (.int low) (.int high))))) [.bool b]) u [] (Offers Course.shapes L c) := by
        refine .invoke (L.deaf _ rfl) (.bind_silent (.ask rfl (.done ⟨_, rfl, ?_⟩)))
        refine .graft_of_leaf rfl rfl (.ask rfl (hbody.mono fun z e _ he => ?_))
        obtain ⟨v, rfl, hv⟩ := he
        exact ⟨v, rfl, hv.lifted⟩
      refine ⟨_, _, rfl, fun u _ => hanswered (.done ⟨_, rfl, ?_⟩), fun u _ => hanswered ?_⟩
      · exact Scene.Shows.leaf (S := Scene.shapes) (v := .leaf 0 (.int low)) rfl trivial
      · obtain ⟨q, hq, hranging⟩ := Choice.exists_chooseIn (low + 1) high u
        exact ⟨[], .ok q, u, hq, trivial, rfl, q, rfl, ih hranging u (by omega)⟩

end AlgebraicEffects
