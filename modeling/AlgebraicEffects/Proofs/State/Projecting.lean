import AlgebraicEffects.Proofs.Comparing.Walking

/-!
With and without the final state.

A program with a state is run for its value alone, or for the pair of its value and the final state. Under
the two leaf transforms it goes on with functions from the state that do the same but at their ends, where
the one gives what the other pairs (`Comparison.matched_stateRun`). What a program with a state gives is
lifted, so the two ways differ by a graft of the first component, and by a map of it where the values are no
programs (`stateRun_projects`).
-/

set_option autoImplicit false

namespace AlgebraicEffects

open Action (Traced)
open Comparison (exact Twins stateTable)
open Output (printName)

variable {V : Type} {S : Scene V}

namespace Comparison

/-- What is rebuilt of the programs that functions from the state give. -/
theorem finishes_rebuilding {E : Comparison S} {Λ : Traits S} {k k' : Value → Action Value}
    (hpasses : E.passes = false) (hk : E.Rebuilds k) (hk' : E.Rebuilds k') : E.Finishes Λ k k' k k' where
  lifted h := h
  through _ hpassed := absurd (hpasses.symm.trans hpassed) Bool.false_ne_true
  through' _ hpassed := absurd (hpasses.symm.trans hpassed) Bool.false_ne_true
  applied {n w u v v' x x' t t'} h hlevel hx := by
    have hleads {k : Value → Action Value} (hk : E.Rebuilds k) (s : Store) (t tag : Nat) (f x : Value) :
        E.Leads s ((Program.graft (.leaf tag f) (.arrowOf (.applying [.leaf t x]))).bind k) 3 [] s
          ((Action.ask f [x]).bind k) := by
      rw [graft_leaf_bind rfl tag f hk.lifts, ← lift_bind hk.lifts (Action.ask f [x])]
      exact (leads_applying s t f x).bind k
    refine Twins.rebuilt (Λ := E.finishing Λ k k') hpasses ((rebuilds_graft rfl).andThen hk)
      ((rebuilds_graft rfl).andThen hk') (fun _ _ hp => hp) ?_ h hlevel
    intro j z y tag tag' f f' _ hz hy hlevel hf
    refine .leading (hleads hk _ t tag f x) (hleads hk' _ t' tag' f' x') fun m hm => ?_
    exact hf m z y x x' (by omega) (E.course.refl z) (E.course.refl y) hlevel (E.same_later hz hy hx)

/-- What a program with a state ends with: its value, if that is wanted paired with the state. -/
def final (paired : Bool) (v state : Value) : Value := if paired then .tuple 0 [v, state] else v

theorem apply_finishAt (paired : Bool) (v state : Value) :
    (Function.finishAt paired v).apply (.of [state]) = .done (final paired v state) := by
  cases paired <;> rfl

variable {C : Course S} {L : Listener} {w : S.World} {k k' : Value → Action Value}

/-- Runs of one program that are gone on with so to twins wherever it ends are so gone on with to twins. -/
theorem matched_stateRun {Λ : Traits S} (hC : C.IsOpen) (hperforms : ∀ name params, Λ.performs name params)
    (hk : (exact C L).Rebuilds k) (hk' : (exact C L).Rebuilds k') (p initial : Value) (paired paired' : Bool)
    (hend : ∀ j z v state, C.Later w z → C.Reaches w p v → (exact C L).Matched j (k (final paired v state)) z
      (k' (final paired' v state)) z ((exact C L).Twins Λ)) (n : Nat) :
    (exact C L).Matched n ((State.run p initial (.bool paired)).bind k) w
      ((State.run p initial (.bool paired')).bind k') w ((exact C L).Twins Λ) := by
  have hfinishes := finishes_rebuilding (Λ := Λ) rfl hk hk'
  have hproceeds := hfinishes.proceeds (n := n) (w := w) (u := w) (exact_fair hC)
    (Λ := (exact C L).holding (C.Reaches w p) fun _ _ => True) paired paired'
    (fun name params _ _ _ => hperforms name params) ?_
  · have hheld : (exact C L).Twins ((exact C L).holding (C.Reaches w p) fun _ _ => True) n w (Program.lift p)
        w (Program.lift p) :=
      .refl_holding hC (Program.isProgram_lift p) (fun _ _ _ => trivial) fun _ => Course.Reaches.of_lift
    have hhandled := hheld.next hproceeds rfl
    rw [hproceeds.continued.lifts, hproceeds.continued'.lifts] at hhandled
    rw [stateRun_eq rfl, stateRun_eq rfl, Action.bind_assoc, Action.bind_assoc]
    exact .bind (exact_through _) (exact_through _)
      (hhandled.mono fun _ _ _ _ _ _ _ _ hlevel h => hfinishes.applied h hlevel rfl)
  · rintro j z _ x _ _ hz _ ⟨hx, hreached⟩ i z' _ state _ _ hz' _ rfl rfl
    obtain rfl : x = _ := hx
    exact .pure rfl rfl (apply_finishAt paired x state) (apply_finishAt paired' x state)
      (hend i z' x state (C.trans hz hz') hreached)

end Comparison

variable {C : Course S} {L : Listener} {w : S.World} {f p initial : Value} {k : Value → Action Value}

/-- What a program with a state gives is lifted already. -/
theorem stateRun_bind_lift (p initial : Value) (paired : Bool) :
    ((State.run p initial (.bool paired)).bind fun v => .done (Program.lift v)) =
      State.run p initial (.bool paired) := by
  rw [Comparison.stateRun_eq rfl, Action.bind_assoc]
  refine congrArg (Action.bind _) (funext fun v => ?_)
  rw [Program.applyTo, graft_bind_lift v rfl Action.done, Action.bind_done]

/-- Leaves that carry values which are related so. -/
def Comparison.relating (R : Value → Value → Prop) : Traits S where
  carries _ _ x _ x' := R x x'
  fewer _ h := h
  performs _ _ := True

section Projecting

variable (hC : C.IsOpen)
include hC

/-- The value alone cannot be told from what is rebuilt of the pair, if it cannot be so where the program
ends. -/
theorem agree_stateRun (hk : (exact C L).Rebuilds k) (hend : ∀ z v state, C.Later w z → C.Reaches w p v →
      C.Agree L z (.done (Program.lift v)) (k (.tuple 0 [v, state]))) :
    C.Agree L w (State.run p initial (.bool false)) ((State.run p initial (.bool true)).bind k) := by
  rw [← stateRun_bind_lift p initial false]
  refine fun n => ⟨?_, ?_⟩
  · exact Comparison.matched_stateRun hC (fun _ _ => trivial) Comparison.rebuilds_lift hk p initial
      false true (fun j z v state hz hv => (hend z v state hz hv j).1) n
  · exact Comparison.matched_stateRun hC (fun _ _ => trivial) hk Comparison.rebuilds_lift p initial
      true false (fun j z v state hz hv => (hend z v state hz hv j).2) n

/-- Runs whose ends are no programs are twins with the ends at their leaves. -/
theorem matched_ends {R : Value → Value → Prop} (paired paired' : Bool)
    (hend : ∀ v state, C.Reaches w p v →
      (Comparison.final paired v state).isProgram = false ∧
      (Comparison.final paired' v state).isProgram = false ∧
      R (Comparison.final paired v state) (Comparison.final paired' v state)) (n : Nat) :
    (exact C L).Matched n (State.run p initial (.bool paired)) w (State.run p initial (.bool paired')) w
      ((exact C L).Twins (Comparison.relating R)) := by
  rw [← stateRun_bind_lift p initial paired, ← stateRun_bind_lift p initial paired']
  refine Comparison.matched_stateRun hC (fun _ _ => trivial) Comparison.rebuilds_lift Comparison.rebuilds_lift
    p initial paired paired' (fun j z v state _ hv => ?_) n
  obtain ⟨hplain, hplain', hR⟩ := hend v state hv
  rw [lift_of_not_program hplain, lift_of_not_program hplain']
  exact (Twins.leaf (Λ := Comparison.relating R) hR).done rfl

/-- Where no value is a program, walks through the two runs are the same ones, and where they stand at leaves
the one carries what the other pairs with a state. -/
theorem walked_stateRun (hplain : ∀ v, C.Reaches w p v → v.isProgram = false) (said : List (Event V))
    (path : List (Stride V)) (y : S.World) :
    (∀ v, C.Walked L w (State.run p initial (.bool false)) said path (.leaf v) y ↔
      ∃ state, C.Walked L w (State.run p initial (.bool true)) said path (.leaf (.tuple 0 [v, state])) y) ∧
    ∀ n, (∀ x, n ≠ .leaf x) → (C.Walked L w (State.run p initial (.bool false)) said path n y ↔
      C.Walked L w (State.run p initial (.bool true)) said path n y) := by
  have hforth {n : Node Value} (h : C.Walked L w (State.run p initial (.bool false)) said path n y) :=
    Comparison.exists_walked (Λ := Comparison.relating fun v pair => ∃ state, pair = .tuple 0 [v, state]) hC
      (matched_ends hC false true fun v state hv => ⟨hplain v hv, rfl, state, rfl⟩) h
  have hback {n : Node Value} (h : C.Walked L w (State.run p initial (.bool true)) said path n y) :=
    Comparison.exists_walked (Λ := Comparison.relating fun pair v => ∃ state, pair = .tuple 0 [v, state]) hC
      (matched_ends hC true false fun v state hv => ⟨rfl, hplain v hv, state, rfl⟩) h
  refine ⟨fun v => ⟨fun h => ?_, ?_⟩, fun n hn => ⟨fun h => ?_, fun h => ?_⟩⟩
  · obtain ⟨n', hwalked, halike⟩ := hforth h
    cases halike with
    | leaf hpaired =>
      obtain ⟨state, rfl⟩ := hpaired 0
      exact ⟨state, hwalked⟩
  · rintro ⟨state, h⟩
    obtain ⟨n', hwalked, halike⟩ := hback h
    cases halike with
    | leaf hpaired =>
      obtain ⟨_, hpair⟩ := hpaired 0
      cases hpair
      exact hwalked
  · obtain ⟨n', hwalked, halike⟩ := hforth h
    cases halike with
    | leaf => exact absurd rfl (hn _)
    | operation => exact hwalked
    | failure => exact hwalked
  · obtain ⟨n', hwalked, halike⟩ := hback h
    cases halike with
    | leaf => exact absurd rfl (hn _)
    | operation => exact hwalked
    | failure => exact hwalked

/-- What is paired with the final state is a value with which the program ends. -/
theorem reaches_of_walked {said : List (Event V)} {path : List (Stride V)} {x : Value} {y : S.World}
    (h : C.Walked L w (State.run p initial (.bool true)) said path (.leaf x) y) :
    ∃ v state, x = .tuple 0 [v, state] ∧ C.Reaches w p v := by
  let R (x _ : Value) := ∃ v state, x = .tuple 0 [v, state] ∧ C.Reaches w p v
  obtain ⟨n', -, halike⟩ := Comparison.exists_walked (Λ := Comparison.relating R) hC
    (matched_ends hC true true fun v state hv => ⟨rfl, rfl, v, state, rfl, hv⟩) h
  cases halike with
  | leaf hx => exact hx 0

/-- The two ways to run a program with a state differ only in the state. Where no value with which the program
ends is a program, walks through what they give are the same ones, and at leaves the one carries just the
value that the other pairs with a state. What is paired with a state is always a value with which the program
ends. The run for the value alone cannot be told from the run for the pair followed by its first component,
grafted: what is given is lifted, so where it is a program it is performed. Where no such value is a program,
the first component may as well be mapped. -/
theorem stateRun_projects (w : S.World) (p initial : Value) :
    ((∀ v, C.Reaches w p v → v.isProgram = false) → ∀ said path y,
      (∀ v, C.Walked L w (State.run p initial (.bool false)) said path (.leaf v) y ↔
        ∃ state, C.Walked L w (State.run p initial (.bool true)) said path (.leaf (.tuple 0 [v, state])) y) ∧
      ∀ n, (∀ x, n ≠ .leaf x) → (C.Walked L w (State.run p initial (.bool false)) said path n y ↔
        C.Walked L w (State.run p initial (.bool true)) said path n y)) ∧
    (∀ said path x y, C.Walked L w (State.run p initial (.bool true)) said path (.leaf x) y →
      ∃ v state, x = .tuple 0 [v, state] ∧ C.Reaches w p v) ∧
    ∀ f : Value, f.isCallable = true → (∀ z v state, C.Later w z → C.Reaches w p v →
        C.Coincide L z (Action.ask f [.tuple 0 [v, state]]) (.done v)) →
      C.Agree L w (State.run p initial (.bool false))
        ((State.run p initial (.bool true)).bind (Program.graft · f)) ∧
      ((∀ v, C.Reaches w p v → v.isProgram = false) →
        C.Agree L w (State.run p initial (.bool false))
          ((State.run p initial (.bool true)).bind (Program.map · f))) := by
  refine ⟨walked_stateRun hC, fun _ _ _ _ => reaches_of_walked hC, fun f hf hfirst => ⟨?_, fun hplain => ?_⟩⟩
  · refine agree_stateRun hC (Comparison.rebuilds_graft hf) fun z v state hz hv => ?_
    show C.Agree L z _ (Program.graft (.tuple 0 [v, state]) f)
    rw [Replay.graft_of_leaf (v := .tuple 0 [v, state]) rfl hf]
    exact ((hfirst z v state hz hv).lifted hC).symm
  · refine agree_stateRun hC (Comparison.rebuilds_map hf) fun z v state hz hv => ?_
    rw [lift_of_not_program (hplain v hv), ← (Comparison.rebuilds_map (E := exact C L) hf).lifts]
    exact .of_leads (.refl _ _) (map_leaf_leads hf 0 _ _) (hfirst z v state hz hv).leaves.symm

end Projecting

/-- What prints a message and then carries the value five, whatever it is answered. -/
def printingFive : Value := .operation 0 printName [.text "hello"] (.arrowOf (.constant (.int 5)))

/-- A message is printed before the value five, and of its pair with the state the five is taken. -/
theorem stateRun_projects_printing :
    (∀ v, Course.shapes.Reaches Store.empty printingFive v → v.isProgram = false) ∧
    (∀ said path v y,
      Course.shapes.Walked .scripts Store.empty (State.run printingFive (.int 0) (.bool false)) said path
          (.leaf v) y ↔
        ∃ state, Course.shapes.Walked .scripts Store.empty (State.run printingFive (.int 0) (.bool true)) said
          path (.leaf (.tuple 0 [v, state])) y) ∧
    (∀ z v state, Course.shapes.Later Store.empty z → Course.shapes.Reaches Store.empty printingFive v →
      Course.shapes.Coincide .scripts z (Action.ask (.arrowOf (.constant (.int 5))) [.tuple 0 [v, state]])
        (.done v)) ∧
    Course.shapes.Agree .scripts Store.empty (State.run printingFive (.int 0) (.bool false))
      ((State.run printingFive (.int 0) (.bool true)).bind
        (Program.map · (.arrowOf (.constant (.int 5))))) := by
  have hplain (v : Value) (hv : Course.shapes.Reaches Store.empty printingFive v) : v.isProgram = false := by
    rw [hv.of_constant rfl]
    rfl
  have hfirst (z : Store) (v state : Value) (_ : Course.shapes.Later Store.empty z)
      (hv : Course.shapes.Reaches Store.empty printingFive v) :
      Course.shapes.Coincide .scripts z (Action.ask (.arrowOf (.constant (.int 5))) [.tuple 0 [v, state]])
        (.done v) := by
    obtain rfl := hv.of_constant rfl
    have hasked : Traced (Action.ask (.arrowOf (.constant (.int 5))) [.tuple 0 [.int 5, state]]) z _
        (.ok (.int 5)) z := Traced.invoke (.done _ _)
    exact .of_traced hasked (.done _ z) trivial rfl
  obtain ⟨hwalked, -, hprojected⟩ :=
    stateRun_projects (L := .scripts) Course.isOpen_shapes Store.empty printingFive (.int 0)
  exact ⟨hplain, fun said path v y => (hwalked hplain said path y).1 v, hfirst,
    (hprojected _ rfl hfirst).2 hplain⟩

end AlgebraicEffects
