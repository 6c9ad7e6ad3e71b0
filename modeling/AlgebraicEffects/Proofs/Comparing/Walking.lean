import AlgebraicEffects.Proofs.Comparing.Grafting

/-!
Walks.

A walk through a program answers its operations one after the other, each in any world that is then still to
come, and stands at a node (`Course.Walks`). A walk through the program that an action gives begins with the
action (`Course.Walked`). To walks through the first of two twins there are walks through the second one
that stand in the same worlds at nodes that go together (`Comparison.exists_walked`), and actions that cannot
be told apart have the same walks (`Course.Agree.walked_iff`).
-/

set_option autoImplicit false

namespace AlgebraicEffects

open Action (Traced)
open Comparison (exact)

variable {V : Type} {S : Scene V} {C : Course S} {L : Listener} {w y z : S.World} {p : Value} {e e' : Ending}
  {a b : Action Value} {n : Node Value}

/-- An operation that is answered, and what is observed until the program stands at its next node. -/
structure Stride (V : Type) where
  name : String
  params : List Value
  answer : Value
  said : List (Event V)

variable {path : List (Stride V)} {said : List (Event V)}

/-- The node at which a program stands. What is no program is the leaf that carries it. -/
def Node.of : Ending → Node Value
  | .ok (.operation _ name params _) => .operation name params
  | .ok (.leaf _ x) => .leaf x
  | .ok v => .leaf v
  | .error f => .failure (.failure f)

theorem Node.of_leaf {tag : Nat} {x : Value} (hp : Program.lift p = .leaf tag x) : Node.of (.ok p) = .leaf x := by
  cases p <;> cases hp <;> rfl

/-- The nodes show the same, but for the values at leaves, which are related. -/
inductive Node.Alike (R : Value → Value → Prop) : Node Value → Node Value → Prop where
  | leaf {x x' : Value} : R x x' → Alike R (.leaf x) (.leaf x')
  | operation {name : String} {params : List Value} : Alike R (.operation name params) (.operation name params)
  | failure {f : Value} : Alike R (.failure f) (.failure f)

/-- From this world, answers on this path lead the program to the node, and it stands there in that world. Each
operation may be answered in any world that is still to come, and so any number of times. -/
inductive Course.Walks (C : Course S) (L : Listener) :
    S.World → Ending → List (Stride V) → Node Value → S.World → Prop where
  | stay {w : S.World} {e : Ending} : Walks C L w e [] (Node.of e) w
  | stride {w u z y : S.World} {tag : Nat} {name : String} {params : List Value} {resume answer : Value}
      {cs : List Call} {o : Ending} {path : List (Stride V)} {n : Node Value} : C.Later w u →
      Traced (Program.continueWith resume answer) (S.store u) cs o (S.store z) → C.Later u z →
      Walks C L z o path n y → Walks C L w (.ok (.operation tag name params resume))
        (⟨name, params, answer, L.events S.see cs⟩ :: path) n y

/-- The action done in this world says this, and from what it ends as the path leads to the node, which stands
in that world. -/
def Course.Walked (C : Course S) (L : Listener) (w : S.World) (a : Action Value) (said : List (Event V))
    (path : List (Stride V)) (n : Node Value) (y : S.World) : Prop :=
  ∃ cs o z, Traced a (S.store w) cs o (S.store z) ∧ C.Later w z ∧ L.events S.see cs = said ∧
    C.Walks L z o path n y

namespace Course

/-- A walk through a leaf stands there. -/
theorem walks_leaf {tag : Nat} {x : Value} (hp : Program.lift p = .leaf tag x) :
    C.Walks L w (.ok p) path n y ↔ path = [] ∧ n = .leaf x ∧ y = w := by
  refine ⟨fun h => ?_, ?_⟩
  · cases h with
    | stay => exact ⟨rfl, Node.of_leaf hp, rfl⟩
    | stride => cases hp
  · rintro ⟨rfl, rfl, rfl⟩
    rw [← Node.of_leaf hp]
    exact .stay

theorem walks_lift : C.Walks L w (.ok (Program.lift p)) path n y ↔ C.Walks L w (.ok p) path n y := by
  rcases Replay.lift_cases p with ⟨tag, name, params, resume, rfl⟩ | ⟨tag, x, hp⟩
  · rfl
  · rw [walks_leaf hp, walks_leaf ((lift_lift p).trans hp)]

end Course

namespace Comparison

variable {Λ : Traits S}

/-- To a walk through the first of two twins there is one through the second one. -/
theorem exists_walk (hC : C.IsOpen)
    (h : EndAlike (fun v v' => ∀ m, (exact C L).Twins Λ m w v w v') Eq e e') (hwalk : C.Walks L w e path n y) :
    ∃ n', C.Walks L w e' path n' y ∧ n.Alike (fun x x' => ∀ m, Λ.carries m y x y x') n' := by
  induction hwalk generalizing e' with
  | @stay w e =>
    refine ⟨_, .stay, ?_⟩
    cases h with
    | error hf =>
      cases hf
      exact .failure
    | @ok v v' htwins =>
      cases v with
      | leaf tag x =>
        obtain ⟨tag', x', rfl, -⟩ := (htwins 0).exists_leaf
        refine .leaf fun m => ?_
        obtain ⟨_, _, hleaf, hx⟩ := (htwins m).exists_leaf
        cases hleaf
        exact hx
      | operation tag name params resume =>
        obtain ⟨-, tag', params', resume', rfl, hparams, -⟩ := Twins.exists_operation htwins
        obtain rfl := eq_of_forall₂_same hparams
        exact .operation
      | _ => cases (htwins 0).isProgram.1
  | @stride w u z y tag name params resume answer cs o path n hu hrun hz _ ih =>
    cases h with
    | ok htwins =>
      obtain ⟨-, tag', params', resume', rfl, hparams, hresume⟩ := Twins.exists_operation htwins
      obtain rfl := eq_of_forall₂_same hparams
      obtain ⟨z', ds, o', hstore, -, hrun', hevents, hends⟩ :=
        exists_exact_end hC (fun m => hresume m u u answer answer hu hu rfl rfl) hrun
      cases hC.injective hstore
      obtain ⟨n', hwalk', halike⟩ := ih hends
      refine ⟨n', ?_, halike⟩
      rw [show L.events S.see cs = L.events S.see ds from hevents]
      exact .stride hu hrun' hz hwalk'

/-- And to a walk through what an action gives one through what the other gives. -/
theorem exists_walked (hC : C.IsOpen) (h : ∀ m, (exact C L).Matched m a w b w ((exact C L).Twins Λ))
    (hwalked : C.Walked L w a said path n y) :
    ∃ n', C.Walked L w b said path n' y ∧ n.Alike (fun x x' => ∀ m, Λ.carries m y x y x') n' := by
  obtain ⟨cs, o, z, hrun, hz, rfl, hwalk⟩ := hwalked
  obtain ⟨z', ds, o', hstore, -, hrun', hevents, hends⟩ := exists_exact_end hC h hrun
  cases hC.injective hstore
  obtain ⟨n', hwalk', halike⟩ := exists_walk hC hends hwalk
  exact ⟨n', ⟨ds, o', z, hrun', hz, Eq.symm hevents, hwalk'⟩, halike⟩

end Comparison

theorem Node.Alike.eq {R : Value → Value → Prop} {n' : Node Value} (h : n.Alike R n')
    (hR : ∀ x x', R x x' → x = x') : n = n' := by
  cases h with
  | leaf hx => rw [hR _ _ hx]
  | operation => rfl
  | failure => rfl

/-- What cannot be told apart has the same walks. -/
theorem Course.Agree.walked_iff (hC : C.IsOpen) (h : C.Agree L w a b) :
    C.Walked L w a said path n y ↔ C.Walked L w b said path n y := by
  refine ⟨fun hwalked => ?_, fun hwalked => ?_⟩
  · obtain ⟨n', hwalked', halike⟩ := Comparison.exists_walked hC (fun m => (h m).1) hwalked
    rwa [halike.eq fun _ _ hx => hx 0]
  · obtain ⟨n', hwalked', halike⟩ := Comparison.exists_walked hC (fun m => (h m).2) hwalked
    rwa [halike.eq fun _ _ hx => hx 0]

end AlgebraicEffects
