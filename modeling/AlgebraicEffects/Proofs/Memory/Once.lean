import AlgebraicEffects.Proofs.Memory.Faithful

/-!
Each requested resumption is made once.

Along a run that resumes every operation at most once, the body is started again for every answer, and
with it every resumption before. The continuation is called only for the resumptions that are new: at
every node the calls made so far are those of one uninterrupted run of the body that has received the
same answers, in order.
-/

set_option autoImplicit false

namespace AlgebraicEffects

open Action (Traced)

variable {V : Type} {S : Scene V}

/-- What one uninterrupted run of a body that receives these answers resumes with. -/
def along {τ : Type} (turns : List V → Turn V τ) (answers : List V) : List V :=
  ([] :: passed [] answers).flatMap fun h => (turns h).calls

variable {C : Course S} {K : Resumption S Unit} {turns : List V → Turn V Unit}

theorem owed_passed {memory : List Remembered} {histories : List (List Value)}
    (h : ∀ p ∈ histories, ¬ Reached memory p) :
    histories.flatMap (owed S turns memory) =
      histories.flatMap fun p => (turns (p.map S.see)).calls := by
  rw [List.flatMap_def, List.flatMap_def]
  exact congrArg List.flatten (List.map_congr_left fun p hp => owed_of_not_reached (h p hp))

theorem along_map (ys : List Value) : along turns (ys.map S.see) =
    ([] :: passed [] ys).flatMap fun p => (turns (p.map S.see)).calls := by
  have hpassed := map_passed S.see [] ys
  simp only [List.map_nil] at hpassed
  simp only [along, List.flatMap_cons, List.map_nil, ← hpassed, List.flatMap_map]

/-- Every entry of the memory was made on the way to these answers. -/
def Along (K : Resumption S Unit) (w : S.World) (ys : List Value) : Prop :=
  ∀ m ∈ (S.store w).memory K.memo, m.received ∈ [] :: passed [] ys

theorem Along.extend {w u : S.World} {ys zs xs : List Value} {cs : List Call} (h : Along K w ys)
    (hnoted : Noted K turns True (S.store w) (S.store u) (passed ys zs) xs cs) :
    Along K u (ys ++ zs) := by
  intro m hm
  rw [passed_append, ← List.cons_append]
  rcases hnoted.fresh trivial m hm with hm | ⟨hm, -, -⟩
  · exact List.mem_append_left _ (h m hm)
  · exact List.mem_append_right _ hm

/-- On the way of a single run no turn that comes next has been reached. -/
theorem Along.not_reached {w : S.World} {ys zs p : List Value} (h : Along K w ys)
    (hp : p ∈ passed ys zs) : ¬ Reached ((S.store w).memory K.memo) p := by
  rintro ⟨m, hm, rfl⟩
  have hlt := (length_of_mem_passed hp).1
  rcases List.mem_cons.1 (h m hm) with hnil | hle
  · rw [hnil] at hlt
    exact Nat.not_lt_zero _ hlt
  · have hle := (length_of_mem_passed hle).2
    rw [List.length_nil, Nat.zero_add] at hle
    omega

/-- The calls made on the way to a node, where the body has received the answers `ys`: the memory
holds nothing else, and the continuation has been called as in one run. -/
structure OnTheWay (K : Resumption S Unit) (turns : List V → Turn V Unit) (w : S.World)
    (ys : List Value) (cs : List Call) : Prop where
  along : Along K w ys
  received : (received K.memo cs).map S.see = ys.map S.see
  charged : Charges K (through K.memo cs) (AlgebraicEffects.along turns (ys.map S.see))

theorem OnTheWay.extend {w u : S.World} {ys zs xs : List Value} {cs ds : List Call}
    (h : OnTheWay K turns w ys cs) (hsee : xs.map S.see = zs.map S.see)
    (hnoted : Noted K turns True (S.store w) (S.store u) (passed ys zs) xs ds) :
    OnTheWay K turns u (ys ++ zs) (cs ++ ds) where
  along := h.along.extend hnoted
  received := by
    rw [received_append, List.map_append, h.received, hnoted.received, hsee, List.map_append]
  charged := by
    have hnew := hnoted.charged trivial
    rw [owed_passed fun p hp => h.along.not_reached hp] at hnew
    have hold := h.charged
    rw [along_map] at hold ⊢
    rw [through_append, passed_append, ← List.cons_append, List.flatMap_append]
    exact hold.append hnew

variable {table : Handler.Table} {atLeaf : Option Value} {program implementation resume : Value}
  {tag : Nat} {name : String} {operands : List Value} {root : S.World}

section Delegate

end Delegate

end AlgebraicEffects
