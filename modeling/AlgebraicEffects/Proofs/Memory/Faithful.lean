import AlgebraicEffects.Proofs.Memory.Delegation
import AlgebraicEffects.Proofs.Replay.Built

/-!
The memory is faithful.

If the continuation is a pure function of its argument, the memory never gives back the subtree of
another resumption: a program evaluated with it unfolds to the direct semantics of the implementation,
in which nothing is replayed or remembered, whatever is resumed, how often and in which order.
-/

set_option autoImplicit false

namespace AlgebraicEffects

open Action (Traced Runs)

variable {V : Type} {S : Scene V} {C : Course S} {K : Resumption S (Tree V)}
  {turns : List V → Turn V (Tree V)} {strict : Prop} {root base : S.World}
  {implementation : Value} {params : List V}

/-- What is apart from the memory also unfolds as the memory is kept. -/
theorem Unfolds.keeping (hresumes : Resumes (Look.unfolding C K.memo) K root) {w : S.World}
    {e : Ending} {t : Tree V} (h : Unfolds C (Apart K.memo) w e t) :
    Unfolds (Course.keeping (Look.unfolding C K.memo) K turns strict hresumes) Freely w e t := by
  refine h.mono ?_ ?_ fun _ _ hn => hn
  · exact fun w u (hu : Keeps _ _ _ _ w u) => hu.1
  · intro w cs u hu hapart
    exact ⟨Untouched.keeps hresumes ⟨hu, hapart.2⟩, trivial⟩

/-- The replays of an evaluation are deterministic, as long as the memory is kept. -/
theorem deterministic_factory (hset : Setting (Look.unfolding C K.memo) K root strict)
    (P : ∀ recording, Performs (Look.unfolding C K.memo) K strict root implementation params turns
      (.rememberedResume K.memo recording K.continuation))
    (hcallee : implementation.isForeign K.memo = true) {positional : List Value}
    (hpositional : positional.map S.see = params) (hbase : C.Later root base)
    (hintact : Intact (Look.unfolding C K.memo) K turns strict base)
    (hrecordings : K.firstRecording ≤ (S.store base).recordings.size)
    (hgenerators : K.firstGenerator ≤ (S.store base).generators.size) :
    Deterministic (Course.keeping (Look.unfolding C K.memo) K turns strict hset.resumes)
      (coroutineOf turns) (K.factory implementation positional) [] [] base := by
  rintro w none ys ⟨hw, hkeep⟩ hnone hknown hawaits hstops
  obtain rfl := List.map_eq_nil_iff.1 hnone
  obtain ⟨hintact', -⟩ := hkeep hintact
  have hsizes := hset.grows base w hw
  obtain ⟨cs, outer, s, hmade, hsent, -⟩ := exists_replayed hset P hcallee (C.trans hbase hw)
    (Nat.le_trans hrecordings hsizes.1) (Nat.le_trans hgenerators hsizes.2) hintact' hpositional
    hknown hawaits
  obtain ⟨fed, u, ds, hrun, hu, hintact'', hnoted, hstop⟩ := hsent hstops
  refine ⟨outer, "recording", s, fed, u, hmade.runs, hrun.runs,
    ⟨hu, fun _ => ⟨hintact'', hnoted.grows⟩⟩, ?_⟩
  generalize coroutineOf turns (ys.map S.see) = q at hstop
  cases hstop with
  | yielded h => exact .yielded (h.keeping hset.resumes)
  | returned h => exact .returned (h.keeping hset.resumes)
  | failed h => exact .failed (h.keeping hset.resumes)

variable {table : Handler.Table} {atLeaf : Option Value} {program resume : Value} {tag : Nat}
  {name : String} {operands : List Value}

/-- An operation that is given to a generator gives a program that unfolds to the direct semantics of
the generator, as long as the memory is kept. -/
theorem exists_unfolded (hset : Setting (Look.unfolding C K.memo) K root False)
    (hbegins : K.Begins (S.store root) table atLeaf resume)
    (hoperation : Program.lift program = .operation tag name operands resume)
    (hlookup : table.lookup name = some implementation)
    (hgenerator : implementation.isGeneratorFunction = true)
    (P : ∀ recording, Performs (Look.unfolding C K.memo) K False root implementation
      (operands.map S.see) turns (.rememberedResume K.memo recording K.continuation))
    {n : Node V} (hn : (coroutineOf turns).direct [] [] n) :
    ∃ cs e u, Traced (Handler.evaluate table atLeaf program) (S.store root) cs e (S.store u) ∧
      C.Later root u ∧
      Unfolds (Course.keeping (Look.unfolding C K.memo) K turns False hset.resumes) Freely u e
        ((coroutineOf turns).direct []) := by
  obtain ⟨base, positional, hevaluate, hsee, hbase, hintact, -, hrecordings, hgenerators⟩ :=
    @exists_base _ _ _ _ _ _ _ _ _ _ _ _ _ _ turns _ _ hset hbegins hoperation hlookup hgenerator
  have hbody := deterministic_factory hset P
    (isForeign_of_isGeneratorFunction hgenerator K.memo) hsee hbase hintact hrecordings hgenerators
  have hnone : ([] : List Value).map S.see = [] := rfl
  have hknown : ∀ y ∈ ([] : List Value), S.Known base y := fun y hy => absurd hy List.not_mem_nil
  obtain ⟨cs, e, u, hbuilt, hu, hunfolds⟩ :=
    exists_built hbody 0 0 hnone hknown Coroutine.awaits_nil hn
  exact ⟨cs, e, u, (hevaluate cs e _).2 hbuilt, C.trans hbase hu.1, hunfolds⟩

/-- Evaluated under a handler whose implementation is a generator, an operation gives a program that
unfolds to the direct semantics of the implementation, at all times at which the memory of the
evaluation has been left alone by others. -/
theorem evaluate_unfolds (hset : Setting (Look.unfolding C K.memo) K root False)
    (hbegins : K.Begins (S.store root) table atLeaf resume)
    (hoperation : Program.lift program = .operation tag name operands resume)
    (hlookup : table.lookup name = some implementation)
    (hgenerator : implementation.isGeneratorFunction = true)
    (P : ∀ recording, Performs (Look.unfolding C K.memo) K False root implementation
      (operands.map S.see) turns (.rememberedResume K.memo recording K.continuation))
    {n : Node V} (hn : (coroutineOf turns).direct [] [] n) :
    ∃ D : Course S, (∀ w u, D.Later w u → C.Later w u) ∧
      (∀ w u, Untouched C K w u → D.Later w u) ∧
      ∃ e u, Runs Value.apply (Handler.evaluate table atLeaf program) (S.store root) e (S.store u) ∧
        C.Later root u ∧ Unfolds D Freely u e ((coroutineOf turns).direct []) := by
  obtain ⟨cs, e, u, hrun, hu, hunfolds⟩ :=
    exists_unfolded hset hbegins hoperation hlookup hgenerator P hn
  exact ⟨_, fun w u (h : Keeps _ _ _ _ w u) => h.1, fun _ _ h => h.keeps hset.resumes, e, u,
    hrun.runs, hu, hunfolds⟩

section Delegate

theorem evaluate_unfolds_delegate : ∃ D : Course Scene.integers,
    (∀ w u, Untouched Course.growing (firstResumption Tree.leaf) w u → D.Later w u) ∧
      ∃ e u, Runs Value.apply (Handler.evaluate [("act", delegate flip)] none act) Store.empty e u ∧
        Unfolds D Freely u e ((coroutineOf delegateTurns).direct []) := by
  obtain ⟨D, -, hD, e, u, hrun, -, hunfolds⟩ :=
    evaluate_unfolds setting_delegate firstResumption_begins lift_act lookup_act rfl
      performs_delegateTurns direct_delegate
  exact ⟨D, hD, e, u, hrun, hunfolds⟩

end Delegate

end AlgebraicEffects
