import AlgebraicEffects.Proofs.Calls

/-!
The rules of handlers.

Under a handler a leaf is left or transformed, an operation in the table goes to its implementation
with the continuation under the same handler, and any other operation is forwarded. An implementation
that is no generator is called once, and the program that it gives is the program of the operation.
-/

set_option autoImplicit false

namespace AlgebraicEffects

open Action (Traced)

variable {table : Handler.Table} {atLeaf : Option Value}

/-- What is lifted is a program. -/
theorem Program.isProgram_lift (p : Value) : (Program.lift p).isProgram = true := by
  unfold Program.lift
  split
  · assumption
  · rfl

theorem lift_of_isProgram {p : Value} (h : p.isProgram = true) : Program.lift p = p := if_pos h

theorem lift_of_not_program {p : Value} (h : p.isProgram = false) : Program.lift p = .leaf 0 p :=
  if_neg (by rw [h]; exact Bool.false_ne_true)

/-- What is lifted is lifted already. -/
theorem lift_lift (p : Value) : Program.lift (Program.lift p) = Program.lift p := by
  cases p <;> rfl

/-- At an operation the graft goes beneath it. -/
theorem graft_operation {next : Value} (h : next.isCallable = true) (tag : Nat) (name : String)
    (params : List Value) (resume : Value) :
    Program.graft (.operation tag name params resume) next =
      .done (.operation 0 name params (.arrowOf (.grafted resume next))) := by
  simp only [Program.graft, h, if_true]

/-- A program for its value makes no difference to what is done next with it. -/
theorem graft_lift (p next : Value) : Program.graft (Program.lift p) next = Program.graft p next := by
  cases p <;> rfl

/-- A graft is a program already. -/
theorem graft_bind_lift (p : Value) {next : Value} (hnext : next.isCallable = true) (k : Value → Action Value) :
    ((Program.graft p next).bind fun q => k (Program.lift q)) = (Program.graft p next).bind k := by
  have hask (v : Value) : ((Program.lift <$> Action.ask next [v]).bind fun q => k (Program.lift q)) =
      (Program.lift <$> Action.ask next [v]).bind k := by
    show (((Action.ask next [v]).bind fun x => .done (Program.lift x)).bind _) =
      ((Action.ask next [v]).bind fun x => .done (Program.lift x)).bind k
    rw [Action.bind_assoc, Action.bind_assoc]
    congr 1
    funext x
    exact congrArg k (lift_lift x)
  unfold Program.graft
  rw [if_pos hnext]
  split
  · rfl
  · exact hask _
  · exact hask _

namespace Handler

/-- A program for its value makes no difference to a handler. -/
theorem evaluate_lift (p : Value) :
    evaluate table atLeaf (Program.lift p) = evaluate table atLeaf p := by
  unfold evaluate
  rw [lift_lift]

theorem evaluate_leaf {p v : Value} {tag : Nat} (h : Program.lift p = .leaf tag v) :
    evaluate table none p = .done (.leaf tag v) := by
  unfold evaluate
  rw [h]
  rfl

theorem evaluate_transformed {p v f : Value} {tag : Nat} (h : Program.lift p = .leaf tag v) :
    evaluate table (some f) p = Program.lift <$> Action.ask f [v] := by
  unfold evaluate
  rw [h]

theorem evaluate_handled {name : String} {implementation : Value}
    (h : table.lookup name = some implementation)
    (hgenerator : implementation.isGeneratorFunction = false) (tag : Nat) (params : List Value)
    (resume : Value) :
    evaluate table atLeaf (.operation tag name params resume) =
      Replay.build implementation (.tuple 0 (params ++ [.arrowOf (.under table atLeaf resume)])) []
        (.tuple 0 []) := by
  simp only [evaluate, Program.lift, Value.isProgram, if_true, h, hgenerator, Bool.false_eq_true,
    if_false]

theorem evaluate_forwarded {name : String} (h : table.lookup name = none) (tag : Nat)
    (params : List Value) (resume : Value) :
    evaluate table atLeaf (.operation tag name params resume) =
      .done (.operation 0 name params (.arrowOf (.under table atLeaf resume))) := by
  simp only [evaluate, Program.lift, Value.isProgram, if_true, h]
  rfl

/-- A continuation under a handler goes on with the program that follows the answer. -/
theorem apply_under (resume answer : Value) :
    (Value.arrowOf (.under table atLeaf resume)).apply (.of [answer]) =
      (Action.ask resume [answer]).bind (evaluate table atLeaf) := rfl

end Handler

/-- Implementations refuse other arguments than their own. -/
theorem takeOne_of_length {name : String} {α : Type} {k : Value → Action α} {vs : List Value}
    (h : vs.length ≠ 1) : Action.takeOne name (.of vs) k = .fail (.fault .badType) := by
  match vs, h with
  | [], _ => rfl
  | a :: b :: vs, _ => rfl

theorem takeTwo_of_length {first second : String} {α : Type} {k : Value → Value → Action α}
    {vs : List Value} (h : vs.length ≠ 2) :
    Action.takeTwo first second (.of vs) k = .fail (.fault .badType) := by
  match vs, h with
  | [], _ => rfl
  | [a], _ => rfl
  | a :: b :: c :: vs, _ => rfl

namespace Replay

/-- Building from a function of the library is to call it; what is no program is lifted. -/
theorem build_eq {implementation : Value} (h : implementation.isScripted = false)
    (params : List Value) :
    build implementation (.tuple 0 params) [] (.tuple 0 []) =
      buildOn implementation (.tuple 0 params) params [] (.tuple 0 []) := by
  have hsettled : settled implementation (.tuple 0 params) = .done (.tuple 0 params) := by
    simp only [settled, h, Bool.false_eq_true, if_false]
    rfl
  unfold build
  rw [hsettled]
  rfl

/-- An implementation that gives a program is called once, and that is the program. -/
theorem traced_build {implementation p : Value} (h : implementation.isScripted = false)
    (hp : p.isProgram = true) {params : List Value} {s t : Store} {cs : List Call}
    (hcall : Traced (implementation.apply (.of params)) s cs (.ok p) t) :
    Traced (build implementation (.tuple 0 params) [] (.tuple 0 [])) s
      [.mk implementation (.of params) cs] (.ok p) t := by
  rw [build_eq h]
  refine .call hcall ?_
  cases p with
  | leaf | operation => exact .done _ t
  | _ => cases hp

end Replay

end AlgebraicEffects
