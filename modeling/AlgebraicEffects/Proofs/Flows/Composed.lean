import AlgebraicEffects.Proofs.Flows.Beside

/-!
Programs that are put together from leaves, grafts, waiting, the clock, operations whose handlers
resume once, and evaluations of two programs side by side.

Main statements: they finish exactly once (`Composed.finishesOnce`), and the handler that answers
from an environment is one that resumes once (`Environment.resumesOnce`).
-/

set_option autoImplicit false

namespace AlgebraicEffects

/-- The tree of two programs side by side. -/
def Suspension.parTree (left right : Value) : Value :=
  .operation 0 Suspension.suspendName [.arrowOf .allocateCells]
    (.arrowOf (.grafted (.arrowOf .leaf) (.arrowOf (.parStart left right))))

theorem Suspension.par_eq (left right : Value) :
    Suspension.par left right = .done (Suspension.parTree left right) := rfl

section Composition

variable {host : Value} (H : Registrar host) (W : Watch)

/-- The program that an action makes is put together from parts that finish exactly once, with a
value of this kind. -/
inductive Composed : Effects → (Value → Prop) → Action Value → Prop where
  | leaf {effects : Effects} {L : Value → Prop} (tag : Nat) {v : Value} :
      L v → Composed effects L (.done (.leaf tag v))
  | graft {effects : Effects} {L M : Value → Prop} {a : Action Value} {next : Value} :
      Composed effects L a → next.isCallable = true →
      (∀ v, L v → Composed effects M (Program.lift <$> Action.ask next [v])) →
      Composed effects M (a.bind fun p => Program.graft p next)
  | wait {effects : Effects} {L : Value → Prop} {delay : Value} :
      H.Accepts delay → L .nothing → Composed effects L (Suspension.wait delay)
  | now {effects : Effects} {L : Value → Prop} :
      (∀ v, H.Times v → L v) → Composed effects L (.done Suspension.now)
  | operation {effects : Effects} {L : Value → Prop} {name : String} {params : List Value}
      {Answer : Value → Prop} (tag : Nat) {resume : Value} :
      effects name params Answer → (∀ a, Answer a → Composed effects L (Action.ask resume [a])) →
      Composed effects L (.done (.operation tag name params resume))
  | handled {inner outer : Effects} {L M : Value → Prop} {a : Action Value} {table : Handler.Table}
      {atLeaf : Option Value} :
      Composed inner L a →
      table.lookup Suspension.suspendName = none → table.lookup Suspension.nowName = none →
      ResumesOnce H W inner outer M table atLeaf →
      (∀ tag v, L v → Composed outer M (Handler.evaluate table atLeaf (.leaf tag v))) →
      Composed outer M (a.bind (Handler.evaluate table atLeaf))
  | par {effects : Effects} {P : Bool → Value → Prop} {left right : Value} :
      (∀ side, ¬ P side .notAvailable) →
      Composed effects (P false) (.done (Program.lift left)) →
      Composed effects (P true) (.done (Program.lift right)) →
      Composed effects (Pairs P) (Suspension.par left right)
  /-- Code in between may do anything that leaves the lists of others alone and calls nothing that
  is watched. -/
  | runs {effects : Effects} {L : Value → Prop} {a : Action Value} (b : Store → Action Value)
      (t : Store → Store) :
      (∀ s, H.Ready s → Comes W a s (b s) (t s) ∧ Works H (fun _ => False) s [] (t s)) →
      (∀ s, H.Ready s → Composed effects L (b s)) → Composed effects L a
  | weaken {effects : Effects} {L M : Value → Prop} {a : Action Value} :
      Composed effects L a → (∀ v, L v → M v) → Composed effects M a

variable {H W} {effects : Effects} {L M : Value → Prop} {a : Action Value}

theorem FinishesOnce.weaken (h : FinishesOnce H W effects L a) (hle : ∀ v, L v → M v) :
    FinishesOnce H W effects M a := fun enclosing henclosing C hC =>
  (h enclosing henclosing C hC).andThen fun D _ _ hD hv _ hs =>
    .finish (C := D) (.here _ _) (.refl hs) hD (hle _ hv)

/-- Programs that are put together from these parts finish exactly once. -/
theorem Composed.finishesOnce (h : Composed H W effects L a) : FinishesOnce H W effects L a := by
  induction h with
  | leaf tag hv => exact finishesOnce_leaf tag hv
  | graft _ hcallable _ ih ihnext => exact ih.graft hcallable ihnext
  | wait hdelay hL => exact finishesOnce_wait hdelay hL
  | now hL => exact finishesOnce_now hL
  | operation tag heffect _ ih => exact finishesOnce_operation heffect tag ih
  | handled _ hsuspend hnow honce _ ih ihleaf => exact ih.handled hsuspend hnow honce ihleaf
  | par hP _ _ ihleft ihright => exact finishesOnce_par hP ihleft ihright
  | runs b t hruns _ ih =>
    intro enclosing henclosing C hC s hs
    obtain ⟨hcomes, hworks⟩ := hruns s hs
    exact .comes (hcomes.bind C) hworks (.refl [])
      ((ih s hs enclosing henclosing C hC _ hworks.stays).mono fun _ => False.elim)
  | weaken _ hle ih => exact ih.weaken hle

/-- Evaluations of two programs side by side may be nested. -/
theorem Composed.parTree {P : Bool → Value → Prop} {left right : Value}
    (hP : ∀ side, ¬ P side .notAvailable)
    (hleft : Composed H W effects (P false) (.done (Program.lift left)))
    (hright : Composed H W effects (P true) (.done (Program.lift right))) :
    Composed H W effects (Pairs P) (.done (Program.lift (Suspension.parTree left right))) := by
  have hpar := Composed.par hP hleft hright
  rw [Suspension.par_eq] at hpar
  exact hpar

end Composition

namespace Environment

variable {host : Value} {H : Registrar host} {W : Watch} {outer : Effects} {M : Value → Prop}

/-- The questions for an environment and for one of its keys, with their answers. -/
def questions (tag : Nat) (environment : List (Value × Value)) : Effects := fun name params Answer =>
  name = readName ∧ params = [] ∧ Answer = (· = .frozen tag environment) ∨
    ∃ key v, name = askName ∧ params = [key] ∧ Answer = (· = v) ∧
      ∀ s, Action.Traced (Value.find environment key) s [] (.ok (some v)) s

/-- The handler that answers from an environment resumes once. -/
theorem resumesOnce (tag : Nat) (environment : List (Value × Value)) (atLeaf : Option Value)
    (hread : W.sees (.arrowOf (.readAll tag environment)) = false)
    (hask : W.sees (.arrowOf (.askFor environment)) = false) :
    ResumesOnce H W (questions tag environment) outer M
      [(readName, .arrowOf (.readAll tag environment)), (askName, .arrowOf (.askFor environment))]
      atLeaf := by
  refine resumesOnce_of_answers ?_
  rintro _ _ _ (⟨rfl, rfl, rfl⟩ | ⟨key, v, rfl, rfl, rfl, hfind⟩)
  · exact ⟨_, rfl, hread, rfl, rfl, fun continuation s hs =>
      ⟨_, s, rfl, .refl hs, .here (Action.ask continuation [.frozen tag environment]) s⟩⟩
  · refine ⟨_, rfl, hask, rfl, rfl, fun continuation s hs => ⟨v, s, rfl, .refl hs, ?_⟩⟩
    exact .of_traced (hfind s) _

end Environment

end AlgebraicEffects
