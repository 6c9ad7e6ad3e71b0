import AlgebraicEffects.Proofs.Memory.Keeping
import AlgebraicEffects.Handler.Basic

/-!
Evaluations with a memory.

An operation whose implementation is a generator is evaluated with a new memory, which starts empty,
and then builds a program from the factory of the evaluation.
-/

set_option autoImplicit false

namespace AlgebraicEffects

open Action (Traced)

variable {V τ : Type} {S : Scene V}

/-- The evaluation begins in this store: its memory and its objects are new, and what it resumes is
the continuation of the operation under the same handler. -/
structure Resumption.Begins (K : Resumption S τ) (s : Store) (table : Handler.Table)
    (atLeaf : Option Value) (resume : Value) : Prop where
  memo : K.memo = s.memos.size
  recordings : K.firstRecording = s.recordings.size
  generators : K.firstGenerator = s.generators.size
  continuation : K.continuation = .arrowOf (.under table atLeaf resume)

/-- The store with one more memory. -/
def Store.addMemo (s : Store) : Store := { s with memos := s.memos.push [] }

variable {C : Course S} {A : Look C τ} {K : Resumption S τ} {table : Handler.Table}
  {atLeaf : Option Value} {program implementation resume : Value} {tag : Nat} {name : String}
  {operands : List Value}

theorem Resumption.Begins.memory {s : Store} (h : K.Begins s table atLeaf resume) :
    s.memory K.memo = [] := by
  simp [Store.memory, h.memo]

theorem bookkeeping_addMemo {s : Store} (h : K.memo = s.memos.size) :
    Bookkeeping K s s.addMemo where
  rest := rfl
  memos i hi := by
    have hne : i ≠ s.memos.size := by omega
    simp [Store.addMemo, Array.getElem?_push, hne]
  recordings _ _ := rfl
  generators _ _ := rfl
  recordings_le := Nat.le_refl _
  generators_le := Nat.le_refl _

theorem see_identifyAll (s : Store) (vs : List Value) :
    (s.identifyAll (.of vs)).1.positional.map S.see = vs.map S.see := by
  unfold Store.identifyAll
  by_cases h : (Arguments.of vs).areIdentified
  · simp only [h, if_true]
    rfl
  · simp only [h, if_false, Bool.false_eq_true]
    exact Scene.see_taggedItems [] vs s.nextTag

/-- An operation that is given to a generator is evaluated with a new memory. -/
theorem Handler.evaluate_eq (hoperation : Program.lift program = .operation tag name operands resume)
    (hlookup : table.lookup name = some implementation)
    (hgenerator : implementation.isGeneratorFunction = true) :
    Handler.evaluate table atLeaf program = Replay.allocateMemo.bind fun memo =>
      (Action.identifyAll (.of operands)).bind fun call =>
        Replay.buildOn (.arrowOf (.remembering memo implementation call.positional
          (.arrowOf (.under table atLeaf resume)))) (.tuple 0 []) [] [] (.tuple 0 []) := by
  unfold Handler.evaluate
  rw [hoperation]
  simp only [hlookup, hgenerator, if_true]
  rfl

theorem traced_allocateMemo (s : Store) :
    Traced Replay.allocateMemo s [] (.ok s.memos.size) s.addMemo :=
  .read (.write (.done _ _))

variable {turns : List V → Turn V τ} {strict : Prop} {root : S.World}

/-- The evaluation comes to a world in which its memory is empty, and builds its program there. -/
theorem exists_base (hset : Setting A K root strict)
    (hbegins : K.Begins (S.store root) table atLeaf resume)
    (hoperation : Program.lift program = .operation tag name operands resume)
    (hlookup : table.lookup name = some implementation)
    (hgenerator : implementation.isGeneratorFunction = true) :
    ∃ base positional,
      (∀ cs e t, Traced (Handler.evaluate table atLeaf program) (S.store root) cs e t ↔
        Traced (Replay.buildOn (K.factory implementation positional) (.tuple 0 []) [] []
          (.tuple 0 [])) (S.store base) cs e t) ∧
      positional.map S.see = operands.map S.see ∧ C.Later root base ∧
      Intact A K turns strict base ∧ (S.store base).memory K.memo = [] ∧
      K.firstRecording ≤ (S.store base).recordings.size ∧
      K.firstGenerator ≤ (S.store base).generators.size := by
  obtain ⟨w, hw, hstore⟩ := hset.books root _ (C.refl root) (bookkeeping_addMemo hbegins.memo)
  obtain ⟨base, hbase, hstore'⟩ := C.identifiedAll w (.of operands)
  rw [hstore] at hstore'
  obtain ⟨n, -, hn⟩ := Store.identifyAll_snd (S.store root).addMemo (.of operands)
  have hmemos : (S.store base).memos = (S.store root).memos.push [] := by
    rw [hstore', hn]
    rfl
  have hlater := C.trans hw hbase
  have hsizes := hset.grows root base hlater
  have hmemory : (S.store base).memory K.memo = [] := by
    simp [Store.memory, hmemos, hbegins.memo]
  have hallocated := traced_allocateMemo (S.store root)
  have hidentified := traced_identifyAll (S.store root).addMemo (.of operands)
  rw [← hstore'] at hidentified
  rw [← hbegins.memo] at hallocated
  refine ⟨base, _, fun cs e t => ?_, see_identifyAll (S.store root).addMemo operands, hlater, ?_,
    hmemory, ?_, ?_⟩
  · rw [Handler.evaluate_eq hoperation hlookup hgenerator, ← hbegins.continuation]
    constructor
    · intro h
      obtain ⟨ds, hcs, h⟩ := h.of_bind hallocated
      obtain ⟨es, hds, h⟩ := h.of_bind hidentified
      rw [hcs, hds]
      exact h
    · intro h
      exact hallocated.bind (hidentified.bind h)
  · exact {
      allocated := by simp [hmemos, hbegins.memo]
      genuine := fun m hm => by rw [hmemory] at hm; exact absurd hm List.not_mem_nil
      complete := fun _ m hm => by rw [hmemory] at hm; exact absurd hm List.not_mem_nil }
  · rw [hbegins.recordings]
    exact hsizes.1
  · rw [hbegins.generators]
    exact hsizes.2

end AlgebraicEffects
