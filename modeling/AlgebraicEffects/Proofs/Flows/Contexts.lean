import AlgebraicEffects.Proofs.Flows.Delivery

/-!
Programs that finish exactly once, and what encloses them.

A program is enclosed by what is grafted onto it, by handlers, and in the end by the handler that
suspends flows. What a context has to do for suspensions, for the clock and for the effects that it
handles is said by `Encloses`: it resumes each operation once, at once or later, and encloses what
follows as it did before. A program finishes exactly once if in all such contexts it delivers one
value (`FinishesOnce`). Main statements: leaves, operations, grafts and handled programs finish
exactly once.
-/

set_option autoImplicit false

namespace AlgebraicEffects

open Suspension (suspendName nowName)

/-- Which operations may be performed, with which answers. -/
abbrev Effects := String → List Value → (Value → Prop) → Prop

/-- What ends without doing anything, whatever it is given. -/
def Idle (W : Watch) (K : Value → Action Value) : Prop :=
  ∀ v s, ∃ x, Comes W (K v) s (.done x) s

section Enclosing

variable {host : Value} (H : Registrar host) (W : Watch)

/-- What contexts do for the programs that they enclose. A suspension is started with a callback and
the host. The callback resumes it; so does the context the question for the time, and any other
operation that it handles, be it later. -/
structure Encloses (effects : Effects) (enclosing : Context → Prop) : Prop where
  followed {C : Context} {K : Value → Action Value} : enclosing C → Idle W K →
    enclosing fun p => (C p).bind K
  suspend {C : Context} : enclosing C → ∀ (tag : Nat) (start : Function) (resume : Value),
    start.movesFlows = true → ∃ callback K, W.sees callback = false ∧ Idle W K ∧
      (∀ s, Comes W (C (.operation tag suspendName [.arrowOf start] resume)) s
        ((start.apply (.of [callback, host])).bind K) s) ∧
      ∀ arguments answer, arguments = [] ∧ answer = .nothing ∨ arguments = [answer] →
        ∃ D, enclosing D ∧ ∀ s,
          Comes W (callback.apply (.of arguments)) s ((Action.ask resume [answer]).bind D) s
  now {C : Context} : enclosing C → ∀ (tag : Nat) (resume : Value) (s : Store), H.Ready s →
    ∃ v D, H.Times v ∧ enclosing D ∧
      Comes W (C (.operation tag nowName [] resume)) s ((Action.ask resume [v]).bind D) s
  perform {C : Context} {name : String} {params : List Value} {Answer : Value → Prop} :
    enclosing C → effects name params Answer →
    ∀ (tag : Nat) (resume : Value) (further : Context → Prop) (M : Value → Prop),
      (∀ a, Answer a → ∀ D, enclosing D → Surely H W further M ((Action.ask resume [a]).bind D)) →
      Surely H W further M (C (.operation tag name params resume))

/-- The program that the action makes finishes exactly once, with such a value, wherever it is
enclosed by contexts that handle its effects. -/
def FinishesOnce (effects : Effects) (L : Value → Prop) (a : Action Value) : Prop :=
  ∀ enclosing, Encloses H W effects enclosing → ∀ C, enclosing C →
    Surely H W enclosing L (a.bind C)

/-- The contexts inside of others, where one of these things is done with programs. -/
def inside (within : (Value → Action Value) → Prop) (enclosing : Context → Prop)
    (D : Context) : Prop :=
  ∃ F C, within F ∧ enclosing C ∧ D = fun p => (F p).bind C

/-- The operation is passed on, and one of these things is done with what follows it. -/
def Passes (within : (Value → Action Value) → Prop) (F : Value → Action Value) (name : String)
    (params : List Value) : Prop :=
  ∀ tag resume, ∃ tag' resume' F', within F' ∧
    (∀ s, Comes W (F (.operation tag name params resume)) s
      (.done (.operation tag' name params resume')) s) ∧
    ∀ a s, Comes W (Action.ask resume' [a]) s ((Action.ask resume [a]).bind F') s

end Enclosing

section Passing

variable {host : Value} {H : Registrar host} {W : Watch} {F G : Value → Action Value}
  {name : String} {params : List Value} {effects : Effects} {enclosing : Context → Prop}
  {within further all : (Value → Action Value) → Prop}

theorem Passes.bind (hF : Passes W within F name params) (hG : Passes W further G name params)
    (hall : ∀ F G, within F → further G → all fun p => (F p).bind G) :
    Passes W all (fun p => (F p).bind G) name params := by
  intro tag resume
  obtain ⟨tag₁, resume₁, F', hF', hop₁, hask₁⟩ := hF tag resume
  obtain ⟨tag₂, resume₂, G', hG', hop₂, hask₂⟩ := hG tag₁ resume₁
  refine ⟨tag₂, resume₂, _, hall F' G' hF' hG', fun s => ((hop₁ s).bind G).trans (hop₂ s),
    fun a s => ?_⟩
  refine (hask₂ a s).trans ?_
  rw [← Action.bind_assoc]
  exact (hask₁ a s).bind G'

/-- What passes an operation on leaves it to what is outside. -/
theorem Passes.comes (h : Passes W within F name params) (tag : Nat) (resume : Value) :
    ∃ tag' resume' F', within F' ∧ ∀ C : Context,
      (∀ s, Comes W ((F (.operation tag name params resume)).bind C) s
        (C (.operation tag' name params resume')) s) ∧
      ∀ a s, Comes W ((Action.ask resume' [a]).bind C) s
        ((Action.ask resume [a]).bind fun p => (F' p).bind C) s := by
  obtain ⟨tag', resume', F', hF', hop, hask⟩ := h tag resume
  refine ⟨tag', resume', F', hF', fun C => ⟨fun s => (hop s).bind C, fun a s => ?_⟩⟩
  rw [← Action.bind_assoc]
  exact (hask a s).bind C

/-- An operation that is passed on is performed by what is outside. -/
theorem Passes.perform {Answer : Value → Prop} (h : Passes W within F name params)
    (henclosing : Encloses H W effects enclosing) {C : Context} (hC : enclosing C)
    (heffect : effects name params Answer) (tag : Nat) (resume : Value)
    (further : Context → Prop) (M : Value → Prop)
    (hresume : ∀ a, Answer a → ∀ D, inside within enclosing D →
      Surely H W further M ((Action.ask resume [a]).bind D)) :
    Surely H W further M ((F (.operation tag name params resume)).bind C) := by
  obtain ⟨tag', resume', F', hF', hpass⟩ := h.comes tag resume
  exact .comes (hpass C).1 (henclosing.perform hC heffect tag' resume' further M fun a ha D hD =>
    .comes ((hpass D).2 a) (hresume a ha _ ⟨F', D, hF', hD, rfl⟩))

/-- Contexts inside of others enclose programs if they pass on what belongs to flows, and perform
the other operations. -/
theorem encloses_inside {inner : Effects} (h : Encloses H W effects enclosing)
    (hsuspend : ∀ F, within F → ∀ start, Passes W within F suspendName [start])
    (hnow : ∀ F, within F → Passes W within F nowName [])
    (hperform : ∀ F, within F → ∀ C, enclosing C → ∀ name params Answer, inner name params Answer →
      ∀ tag resume further M,
        (∀ a, Answer a → ∀ D, inside within enclosing D →
          Surely H W further M ((Action.ask resume [a]).bind D)) →
        Surely H W further M ((F (.operation tag name params resume)).bind C)) :
    Encloses H W inner (inside within enclosing) where
  followed := by
    rintro _ K ⟨F, C, hF, hC, rfl⟩ hK
    refine ⟨F, _, hF, h.followed hC hK, ?_⟩
    funext p
    exact Action.bind_assoc _ _ _
  suspend := by
    rintro _ ⟨F, C, hF, hC, rfl⟩ tag start resume hstart
    obtain ⟨tag', resume', F', hF', hpass⟩ := (hsuspend F hF _).comes tag resume
    obtain ⟨callback, K, hcallback, hK, hbegin, hcalled⟩ := h.suspend hC tag' start resume' hstart
    refine ⟨callback, K, hcallback, hK, fun s => ((hpass C).1 s).trans (hbegin s),
      fun arguments answer hanswer => ?_⟩
    obtain ⟨D, hD, hcall⟩ := hcalled arguments answer hanswer
    exact ⟨_, ⟨F', D, hF', hD, rfl⟩, fun s => (hcall s).trans ((hpass D).2 answer s)⟩
  now := by
    rintro _ ⟨F, C, hF, hC, rfl⟩ tag resume s hs
    obtain ⟨tag', resume', F', hF', hpass⟩ := (hnow F hF).comes tag resume
    obtain ⟨v, D, hv, hD, hrest⟩ := h.now hC tag' resume' s hs
    exact ⟨v, _, hv, ⟨F', D, hF', hD, rfl⟩, (((hpass C).1 s).trans hrest).trans ((hpass D).2 v s)⟩
  perform := by
    rintro _ name params Answer ⟨F, C, hF, hC, rfl⟩ heffect tag resume further M hresume
    exact hperform F hF C hC name params Answer heffect tag resume further M hresume

end Passing

section Grafting

variable {host : Value} {H : Registrar host} {W : Watch} {effects : Effects}
  {enclosing : Context → Prop} {L M : Value → Prop} {next : Value}

theorem passes_graft (h : next.isCallable = true) (name : String) (params : List Value) :
    Passes W (· = fun p => Program.graft p next) (fun p => Program.graft p next) name params := by
  intro tag resume
  refine ⟨0, .arrowOf (.grafted resume next), _, rfl, fun s => ?_,
    fun a s => .ask (W.blind rfl) [a] s⟩
  simp only [Program.graft, h, if_true]
  exact .here _ s

theorem encloses_graft (h : Encloses H W effects enclosing) (hnext : next.isCallable = true) :
    Encloses H W effects (inside (· = fun p => Program.graft p next) enclosing) := by
  refine encloses_inside h ?_ ?_ ?_
  · rintro _ rfl start
    exact passes_graft hnext _ _
  · rintro _ rfl
    exact passes_graft hnext _ _
  · rintro _ rfl C hC name params Answer heffect tag resume further M hresume
    exact (passes_graft hnext name params).perform h hC heffect tag resume further M hresume

/-- A leaf finishes with its value. -/
theorem finishesOnce_leaf (tag : Nat) {v : Value} (hv : L v) :
    FinishesOnce H W effects L (.done (.leaf tag v)) := fun _ _ C hC s hs =>
  .finish (C := C) (.here _ s) (.refl hs) hC hv

/-- An operation finishes exactly once if what follows it does so for each answer. -/
theorem finishesOnce_operation {name : String} {params : List Value} {Answer : Value → Prop}
    (heffect : effects name params Answer) (tag : Nat) {resume : Value}
    (h : ∀ a, Answer a → FinishesOnce H W effects L (Action.ask resume [a])) :
    FinishesOnce H W effects L (.done (.operation tag name params resume)) :=
  fun _ henclosing C hC =>
    henclosing.perform (C := C) hC heffect tag resume _ L fun a ha D hD => h a ha _ henclosing D hD

/-- A graft finishes exactly once if both of its parts do so. -/
theorem FinishesOnce.graft {a : Action Value} (h : FinishesOnce H W effects L a)
    (hcallable : next.isCallable = true)
    (hnext : ∀ v, L v → FinishesOnce H W effects M (Program.lift <$> Action.ask next [v])) :
    FinishesOnce H W effects M (a.bind fun p => Program.graft p next) := by
  intro enclosing henclosing C hC
  rw [Action.bind_assoc]
  refine (h _ (encloses_graft henclosing hcallable) _ ⟨_, C, rfl, hC, rfl⟩).andThen ?_
  rintro _ tag v ⟨_, D, rfl, hD, rfl⟩ hv
  have hleaf : Program.graft (.leaf tag v) next = Program.lift <$> Action.ask next [v] := by
    simp only [Program.graft, hcallable, if_true]
  simp only [hleaf]
  exact hnext v hv enclosing henclosing D hD

/-- Programs are left as they are. -/
def LeavesPrograms (B : Value → Action Value) : Prop :=
  ∀ p : Value, p.isProgram = true → B p = .done p

theorem LeavesPrograms.bind {B F : Value → Action Value} (h : LeavesPrograms B) {p : Value}
    (hp : p.isProgram = true) : (B p).bind F = F p := by
  rw [h p hp]
  rfl

theorem FinishesOnce.unchanged {a : Action Value} {B : Value → Action Value}
    (h : FinishesOnce H W effects L a) (hB : LeavesPrograms B) :
    FinishesOnce H W effects L (a.bind B) := by
  intro enclosing henclosing C hC
  rw [Action.bind_assoc]
  have hpasses (F : Value → Action Value) (hF : LeavesPrograms F) (name : String)
      (params : List Value) : Passes W LeavesPrograms F name params := by
    refine fun tag resume => ⟨tag, resume, .done, fun _ _ => rfl, fun s => ?_, fun a s => ?_⟩
    · rw [hF _ rfl]
      exact .here _ s
    · rw [Action.bind_done]
      exact .here _ s
  refine (h (inside LeavesPrograms enclosing) (encloses_inside henclosing
    (fun F hF start => hpasses F hF _ _) (fun F hF => hpasses F hF _ _) ?_) _
    ⟨B, C, hB, hC, rfl⟩).andThen ?_
  · intro F hF C hC name params Answer heffect tag resume further N hresume
    exact (hpasses F hF name params).perform henclosing hC heffect tag resume further N hresume
  · rintro _ tag v ⟨F, D, hF, hD, rfl⟩ hv
    have hsame : (F (.leaf tag v)).bind D = D (.leaf tag v) := hF.bind rfl
    simp only [hsame]
    exact fun s hs => .finish (C := D) (.here _ s) (.refl hs) hD hv

/-- What may be done with a program after it has been resumed: further programs that finish exactly
once, with values of the same kind, are grafted onto it. What is no program may be treated in any
way. -/
inductive Afterwards (H : Registrar host) (W : Watch) (effects : Effects) (M : Value → Prop) :
    (Value → Action Value) → Prop where
  | nothing : Afterwards H W effects M .done
  | unchanged {B G : Value → Action Value} : LeavesPrograms B → Afterwards H W effects M G →
      Afterwards H W effects M fun p => (B p).bind G
  | graft {G : Value → Action Value} {next : Value} : Afterwards H W effects M G →
      next.isCallable = true →
      (∀ v, M v → FinishesOnce H W effects M (Program.lift <$> Action.ask next [v])) →
      Afterwards H W effects M fun p => (Program.graft p next).bind G

namespace Afterwards

variable {F G : Value → Action Value}

theorem bind (hF : Afterwards H W effects M F) (hG : Afterwards H W effects M G) :
    Afterwards H W effects M fun p => (F p).bind G := by
  induction hF with
  | nothing => exact hG
  | unchanged hB _ ih =>
    simp only [Action.bind_assoc]
    exact ih.unchanged hB
  | graft _ hcallable hnext ih =>
    simp only [Action.bind_assoc]
    exact ih.graft hcallable hnext

theorem passes (h : Afterwards H W effects M G) (name : String) (params : List Value) :
    Passes W (Afterwards H W effects M) G name params := by
  induction h with
  | nothing =>
    refine fun tag resume => ⟨tag, resume, _, .nothing, fun s => .here _ s, fun a s => ?_⟩
    rw [Action.bind_done]
    exact .here _ s
  | @unchanged B G hB _ ih =>
    intro tag resume
    have hsame : (B (.operation tag name params resume)).bind G =
        G (.operation tag name params resume) := hB.bind rfl
    obtain ⟨tag', resume', G', hG', hop, hask⟩ := ih tag resume
    exact ⟨tag', resume', G', hG', fun s => (congrArg (Comes W · s _ s) hsame).mpr (hop s), hask⟩
  | @graft G next _ hcallable hnext ih =>
    refine (passes_graft hcallable name params).bind ih ?_
    rintro _ G' rfl hG'
    exact hG'.graft hcallable hnext

theorem encloses (h : Encloses H W effects enclosing) :
    Encloses H W effects (inside (Afterwards H W effects M) enclosing) := by
  refine encloses_inside h (fun F hF start => hF.passes _ _) (fun F hF => hF.passes _ _) ?_
  intro F hF C hC name params Answer heffect tag resume further N hresume
  exact (hF.passes name params).perform h hC heffect tag resume further N hresume

theorem finishesOnce (hG : Afterwards H W effects M G) {a : Action Value}
    (h : FinishesOnce H W effects M a) : FinishesOnce H W effects M (a.bind G) := by
  induction hG generalizing a with
  | nothing =>
    rw [Action.bind_done]
    exact h
  | unchanged hB _ ih =>
    rw [← Action.bind_assoc]
    exact ih (h.unchanged hB)
  | graft _ hcallable hnext ih =>
    rw [← Action.bind_assoc]
    exact ih (h.graft hcallable hnext)

end Afterwards

end Grafting

section Handling

variable {host : Value} {H : Registrar host} {W : Watch} {inner outer : Effects}
  {enclosing : Context → Prop} {L M : Value → Prop} {table : Handler.Table} {atLeaf : Option Value}

/-- A handler resumes once: whichever of the inner effects it is given, with the outer ones at hand,
it comes to what its continuation gives for an answer, at once or later, and may do something
afterwards. -/
def ResumesOnce (H : Registrar host) (W : Watch) (inner outer : Effects) (M : Value → Prop)
    (table : Handler.Table) (atLeaf : Option Value) : Prop :=
  ∀ name params Answer, inner name params Answer → ∀ enclosing, Encloses H W outer enclosing →
    ∀ C, enclosing C → ∀ tag resume further N,
      (∀ a, Answer a → ∀ D G, enclosing D → Afterwards H W outer M G →
        Surely H W further N
          ((Action.ask (.arrowOf (.under table atLeaf resume)) [a]).bind fun p => (G p).bind D)) →
      Surely H W further N
        ((Handler.evaluate table atLeaf (.operation tag name params resume)).bind C)

/-- An implementation is called with the parameters and the continuation. If it gives a program then
that is what is built from it. -/
theorem exists_implemented (implementation : Value) (himplementation : W.sees implementation = false)
    (hscripted : implementation.isScripted = false) (params : List Value) :
    ∃ B, LeavesPrograms B ∧ ∀ (K : Value → Action Value) s,
      Comes W ((Replay.build implementation (.tuple 0 params) [] (.tuple 0 [])).bind K) s
        ((implementation.apply (.of params)).bind fun v => (B v).bind K) s := by
  have hbuild : ∃ B, LeavesPrograms B ∧
      Replay.buildOn implementation (.tuple 0 params) params [] (.tuple 0 []) =
        (Action.invoke implementation (.of params)).bind B := by
    refine ⟨_, fun p hp => ?_, rfl⟩
    cases p with
    | leaf | operation => rfl
    | _ => cases hp
  obtain ⟨B, hB, hbuild⟩ := hbuild
  refine ⟨B, hB, fun K s => ?_⟩
  have hsettled : Replay.settled implementation (.tuple 0 params) = .done (.tuple 0 params) := by
    simp only [Replay.settled, hscripted, Bool.false_eq_true, if_false]
    rfl
  unfold Replay.build
  rw [hsettled]
  show Comes W
    ((Replay.buildOn implementation (.tuple 0 params) params [] (.tuple 0 [])).bind K) s _ s
  rw [hbuild, Action.bind_assoc]
  exact .invoke himplementation (.of params) _ s

/-- A handler whose implementations answer at once resumes once. -/
theorem resumesOnce_of_answers
    (h : ∀ name params Answer, inner name params Answer → ∃ implementation,
      table.lookup name = some implementation ∧ W.sees implementation = false ∧
      implementation.isScripted = false ∧ implementation.isGeneratorFunction = false ∧
      ∀ continuation s, H.Ready s → ∃ a t, Answer a ∧ Works H (fun _ => False) s [] t ∧
        Comes W (implementation.apply (.of (params ++ [continuation]))) s
          (Action.ask continuation [a]) t) :
    ResumesOnce H W inner outer M table atLeaf := by
  intro name params Answer heffect enclosing henclosing C hC tag resume further N hresume
  obtain ⟨implementation, hlookup, hsees, hscripted, hgenerator, hanswers⟩ :=
    h name params Answer heffect
  obtain ⟨B, hB, hbuilt⟩ := exists_implemented implementation hsees hscripted
    (params ++ [.arrowOf (.under table atLeaf resume)])
  have hevaluate : Handler.evaluate table atLeaf (.operation tag name params resume) =
      Replay.build implementation (.tuple 0 (params ++ [.arrowOf (.under table atLeaf resume)])) []
        (.tuple 0 []) := by
    simp only [Handler.evaluate, Program.lift, Value.isProgram, if_true, hlookup, hgenerator,
      Bool.false_eq_true, if_false]
  rw [hevaluate]
  intro s hs
  obtain ⟨a, t, ha, hworks, hcomes⟩ := hanswers (.arrowOf (.under table atLeaf resume)) s hs
  have hlater := hresume a ha C _ hC (.unchanged hB .nothing) t hworks.stays
  simp only [Action.bind_done] at hlater
  exact .comes ((hbuilt C s).trans (hcomes.bind _)) hworks (.refl [])
    (hlater.mono fun _ => False.elim)

theorem passes_evaluate {name : String} (h : table.lookup name = none) (params : List Value) :
    Passes W (· = Handler.evaluate table atLeaf) (Handler.evaluate table atLeaf) name params := by
  intro tag resume
  refine ⟨0, .arrowOf (.under table atLeaf resume), _, rfl, fun s => ?_,
    fun a s => .ask (W.blind rfl) [a] s⟩
  have heq : Handler.evaluate table atLeaf (.operation tag name params resume) =
      .done (.operation 0 name params (.arrowOf (.under table atLeaf resume))) := by
    simp only [Handler.evaluate, Program.lift, Value.isProgram, if_true, h]
    rfl
  rw [heq]
  exact .here _ s

/-- What is evaluated under a handler, and what is done afterwards. -/
def handling (H : Registrar host) (W : Watch) (outer : Effects) (M : Value → Prop)
    (table : Handler.Table) (atLeaf : Option Value) (F : Value → Action Value) : Prop :=
  ∃ G, Afterwards H W outer M G ∧ F = fun p => (Handler.evaluate table atLeaf p).bind G

theorem encloses_handling (h : Encloses H W outer enclosing)
    (hsuspend : table.lookup suspendName = none) (hnow : table.lookup nowName = none)
    (honce : ResumesOnce H W inner outer M table atLeaf) :
    Encloses H W inner (inside (handling H W outer M table atLeaf) enclosing) := by
  have hhandling (F G : Value → Action Value) (hF : F = Handler.evaluate table atLeaf)
      (hG : Afterwards H W outer M G) : handling H W outer M table atLeaf fun p => (F p).bind G :=
    ⟨G, hG, by rw [hF]⟩
  refine encloses_inside h ?_ ?_ ?_
  · rintro _ ⟨G, hG, rfl⟩ start
    exact (passes_evaluate hsuspend _).bind (hG.passes _ _) hhandling
  · rintro _ ⟨G, hG, rfl⟩
    exact (passes_evaluate hnow _).bind (hG.passes _ _) hhandling
  · rintro _ ⟨G, hG, rfl⟩ C hC name params Answer heffect tag resume further N hresume
    rw [Action.bind_assoc]
    refine honce name params Answer heffect _ (Afterwards.encloses h) _ ⟨G, C, hG, hC, rfl⟩ tag
      resume further N ?_
    rintro a ha _ G' ⟨G, D, hG, hD, rfl⟩ hG'
    refine .comes (fun s => .invoke (W.blind rfl) (.of [a]) _ s) ?_
    have hlater := hresume a ha _ ⟨_, D, ⟨_, hG'.bind hG, rfl⟩, hD, rfl⟩
    show Surely H W further N
      (((Action.ask resume [a]).bind (Handler.evaluate table atLeaf)).bind _)
    simp only [Action.bind_assoc] at hlater ⊢
    exact hlater

/-- A program that is handled by a handler that resumes once finishes exactly once. -/
theorem FinishesOnce.handled {a : Action Value} (h : FinishesOnce H W inner L a)
    (hsuspend : table.lookup suspendName = none) (hnow : table.lookup nowName = none)
    (honce : ResumesOnce H W inner outer M table atLeaf)
    (hleaf : ∀ tag v, L v →
      FinishesOnce H W outer M (Handler.evaluate table atLeaf (.leaf tag v))) :
    FinishesOnce H W outer M (a.bind (Handler.evaluate table atLeaf)) := by
  intro enclosing henclosing C hC
  rw [Action.bind_assoc]
  refine Surely.andThen (h _ (encloses_handling henclosing hsuspend hnow honce) _
    ⟨_, C, ⟨_, .nothing, rfl⟩, hC, ?_⟩) ?_
  · funext p
    rw [Action.bind_done]
  · rintro _ tag v ⟨_, D, ⟨G, hG, rfl⟩, hD, rfl⟩ hv
    exact hG.finishesOnce (hleaf tag v hv) enclosing henclosing D hD

end Handling

end AlgebraicEffects
