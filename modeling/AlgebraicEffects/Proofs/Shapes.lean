import AlgebraicEffects.Proofs.Observation

/-!
The shapes of plain data.

Of integers, truth values, texts, nothing and tuples of these everything is seen but their identities;
of any other value it is seen that it is something else. In this scene every value is known and may be
offered as an answer, in any store.
-/

set_option autoImplicit false

namespace AlgebraicEffects

inductive Shape where
  | nothing
  | bool (b : Bool)
  | int (n : Int)
  | text (s : String)
  | tuple (items : List Shape)
  | other

mutual

/-- What is seen of a value. -/
def Value.shape : Value → Shape
  | .nothing => .nothing
  | .bool b => .bool b
  | .int n => .int n
  | .text s => .text s
  | .tuple _ items => .tuple (shapes items)
  | _ => .other

def shapes : List Value → List Shape
  | [] => []
  | v :: vs => v.shape :: shapes vs

end

theorem shapes_append (us vs : List Value) : shapes (us ++ vs) = shapes us ++ shapes vs := by
  induction us with
  | nil => rfl
  | cons u us ih => simp only [List.cons_append, shapes, ih]

mutual

/-- Identities are not seen. -/
theorem Value.shape_tagged : (v : Value) → ∀ n, (v.tagged n).1.shape = v.shape
  | .tuple 0 [], _ => rfl
  | .tuple 0 (v :: vs), n => by
    have hitems := shapes_taggedItems [(v.tagged (n + 1)).1] vs (v.tagged (n + 1)).2
    simp only [List.reverse_singleton, List.singleton_append, shapes, v.shape_tagged] at hitems
    exact congrArg Shape.tuple hitems
  | .handler 0 _ none, _ | .handler 0 _ (some _), _ => rfl
  | .failure f, n => by cases f <;> rfl
  | .float 0 _, _ | .list 0 _, _ | .names 0 _, _ | .dict 0 _, _ | .view 0 _, _ | .frozen 0 _, _
  | .leaf 0 _, _ | .operation 0 _ _ _, _ | .function 0 _, _ | .arrow 0 _, _ | .ok 0 _, _
  | .err 0 _, _ | .outcome 0 _ _, _ => rfl
  | .float (_ + 1) _, _ | .list (_ + 1) _, _ | .tuple (_ + 1) _, _ | .names (_ + 1) _, _
  | .dict (_ + 1) _, _ | .view (_ + 1) _, _ | .frozen (_ + 1) _, _ | .leaf (_ + 1) _, _
  | .operation (_ + 1) _ _ _, _ | .function (_ + 1) _, _ | .arrow (_ + 1) _, _
  | .handler (_ + 1) _ _, _ | .ok (_ + 1) _, _ | .err (_ + 1) _, _ | .outcome (_ + 1) _ _, _ => rfl
  | .nothing, _ | .bool _, _ | .int _, _ | .text _, _ | .bytes _, _ | .generator _ _, _
  | .agenda _, _ | .loopHost _, _ | .notAvailable, _ => rfl

theorem shapes_taggedItems : (done vs : List Value) → ∀ n,
    shapes (taggedItems done vs n).1 = shapes (done.reverse ++ vs)
  | done, [], _ => congrArg shapes (List.append_nil _).symm
  | done, v :: vs, n => by
    have hitems := shapes_taggedItems ((v.tagged n).1 :: done) vs (v.tagged n).2
    simp only [List.reverse_cons, List.append_assoc, shapes_append, List.cons_append,
      List.nil_append, shapes, v.shape_tagged] at hitems
    rw [shapes_append]
    exact hitems

end

/-- The scene of all stores in which the shapes of values are seen. -/
def Scene.shapes : Scene Shape where
  World := Store
  store := id
  see := Value.shape
  Known _ _ := True
  Fit _ _ := True
  see_tagged := Value.shape_tagged

theorem shape_identify (s : Store) (v : Value) : (s.identify v).1.shape = v.shape :=
  Scene.shapes.see_identify s v

/-- The course of shapes in which any store may follow any other. -/
def Course.shapes : Course Scene.shapes where
  Later _ _ := True
  refl _ := trivial
  trans _ _ := trivial
  known _ h := h
  fit _ h := h
  identified w v := ⟨((show Store from w).identify v).2, trivial, rfl, fun _ => trivial⟩
  identifiedAll w call := ⟨((show Store from w).identifyAll call).2, trivial, rfl⟩

end AlgebraicEffects
