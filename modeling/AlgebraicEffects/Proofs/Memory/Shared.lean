import AlgebraicEffects.Proofs.Memory.Faithful

/-!
Branches share the memory.

All branches of one evaluation look their resumptions up in one memory, by the answers that the body
has received and not by the branch. A resumption of the program therefore calls the continuation for
the histories that it passes and no branch has passed before. It makes the calls that it would have
made at an earlier time exactly if none of the histories with resumptions that it passes has been
passed since then. So it need not do what it would have done if another resumption had not happened.
-/

set_option autoImplicit false

namespace AlgebraicEffects

open Action (Traced)

variable {V : Type} {S : Scene V}

section Charges

variable {τ : Type} {K : Resumption S τ} {turns : List V → Turn V τ}

/-- Calls of the continuation have been made with one sequence of arguments. -/
theorem Charges.unique {made : List (Value × Arguments Value)} {as bs : List V}
    (h : Charges K made as) (g : Charges K made bs) : as = bs := by
  obtain ⟨xs, rfl, rfl⟩ := h
  obtain ⟨ys, hmade, rfl⟩ := g
  rw [(List.map_inj_right fun x y hxy => ?_).1 hmade]
  simp only [Arguments.of, Prod.mk.injEq, Arguments.mk.injEq, List.cons.injEq] at hxy
  exact hxy.2.1.1

theorem length_flatMap_le {α β : Type} {f g : α → List β} {as : List α}
    (h : ∀ a ∈ as, (f a).length ≤ (g a).length) :
    (as.flatMap f).length ≤ (as.flatMap g).length := by
  induction as with
  | nil => exact Nat.le_refl _
  | cons a as ih =>
    have ha := h a List.mem_cons_self
    have has := ih fun b hb => h b (List.mem_cons_of_mem a hb)
    simp only [List.flatMap_cons, List.length_append]
    omega

/-- Sequences of parts that are no longer each and as long together are as long each. -/
theorem length_eq_of_flatMap {α β : Type} {f g : α → List β} {as : List α}
    (h : ∀ a ∈ as, (f a).length ≤ (g a).length)
    (heq : (as.flatMap f).length = (as.flatMap g).length) :
    ∀ a ∈ as, (f a).length = (g a).length := by
  induction as with
  | nil => exact fun a ha => absurd ha List.not_mem_nil
  | cons b bs ih =>
    have hb := h b List.mem_cons_self
    have hrest : ∀ a ∈ bs, (f a).length ≤ (g a).length :=
      fun a ha => h a (List.mem_cons_of_mem b ha)
    have hle := length_flatMap_le hrest
    simp only [List.flatMap_cons, List.length_append] at heq
    intro a ha
    rcases List.mem_cons.1 ha with rfl | ha
    · omega
    · exact ih hrest (by omega) a ha

/-- The same calls are owed on the way with a memory and with one that has less, exactly if every
turn on the way that resumes and is in the one is in the other. -/
theorem owed_eq_iff {memory before : List Remembered} (hgrows : before <+: memory)
    (histories : List (List Value)) :
    histories.flatMap (owed S turns memory) = histories.flatMap (owed S turns before) ↔
      ∀ p ∈ histories, Reached memory p →
        Reached before p ∨ (turns (p.map S.see)).calls = [] := by
  constructor
  · intro heq p hp hr
    by_cases hbefore : Reached before p
    · exact .inl hbefore
    · have hle : ∀ q ∈ histories,
          (owed S turns memory q).length ≤ (owed S turns before q).length := by
        intro q _
        by_cases hq : Reached memory q
        · rw [owed_of_reached hq]
          exact Nat.zero_le _
        · refine Nat.le_of_eq ?_
          rw [owed_of_not_reached hq, owed_of_not_reached fun h => hq (h.mono hgrows)]
      have hlength := length_eq_of_flatMap hle (congrArg List.length heq) p hp
      rw [owed_of_reached hr, owed_of_not_reached hbefore, List.length_nil] at hlength
      exact .inr (List.eq_nil_of_length_eq_zero hlength.symm)
  · intro h
    rw [List.flatMap_def, List.flatMap_def]
    refine congrArg List.flatten (List.map_congr_left fun p hp => ?_)
    by_cases hr : Reached memory p
    · rcases h p hp hr with hbefore | hcalls
      · rw [owed_of_reached hr, owed_of_reached hbefore]
      · rw [owed_of_reached hr]
        by_cases hbefore : Reached before p
        · rw [owed_of_reached hbefore]
        · rw [owed_of_not_reached hbefore, hcalls]
    · rw [owed_of_not_reached hr, owed_of_not_reached fun hb => hr (hb.mono hgrows)]

end Charges

section Sharing

variable {τ : Type} (K : Resumption S τ) (turns : List V → Turn V τ)

/-- What a run does that hands these answers to the body and passes these histories. It calls the
continuation for those that are not in the memory. These are the calls that are owed with an earlier
memory exactly if the histories that have come since then do not resume. -/
structure Resumed (s t : Store) (histories : List (List Value)) (answers : List Value)
    (cs : List Call) : Prop where
  received : (received K.memo cs).map S.see = answers.map S.see
  charged : Charges K (through K.memo cs) (histories.flatMap (owed S turns (s.memory K.memo)))
  alike (before : List Remembered) : before <+: s.memory K.memo →
    (Charges K (through K.memo cs) (histories.flatMap (owed S turns before)) ↔
      ∀ p ∈ histories, Reached (s.memory K.memo) p →
        Reached before p ∨ (turns (p.map S.see)).calls = [])
  reached (p : List Value) : Reached (t.memory K.memo) p ↔
    Reached (s.memory K.memo) p ∨ p ∈ histories ∧ (turns (p.map S.see)).calls ≠ []

variable {K turns}

theorem Noted.resumed {s t : Store} {histories : List (List Value)} {answers zs : List Value}
    {cs : List Call} (h : Noted K turns True s t histories answers cs)
    (hsee : answers.map S.see = zs.map S.see) : Resumed K turns s t histories zs cs where
  received := by rw [h.received, hsee]
  charged := h.charged trivial
  alike := by
    intro before hgrows
    rw [← owed_eq_iff hgrows histories]
    constructor
    · exact fun hbefore => (h.charged trivial).unique hbefore
    · exact fun heq => heq ▸ h.charged trivial
  reached := by
    intro p
    constructor
    · rintro ⟨m, hm, rfl⟩
      rcases h.fresh trivial m hm with hm | ⟨hmem, -, hcalls⟩
      · exact .inl ⟨m, hm, rfl⟩
      · exact .inr ⟨hmem, hcalls⟩
    · rintro (hr | ⟨hmem, hcalls⟩)
      · exact hr.mono h.grows
      · exact h.reached trivial p hmem hcalls

/-- Of two resumptions of one operation, the second makes the calls that it would make if the first
had not happened, exactly if what both pass was there before or does not resume. -/
theorem Resumed.alike_iff {s t s' t' : Store} {ps qs : List (List Value)} {xs zs : List Value}
    {cs ds : List Call} (first : Resumed K turns s t ps xs cs)
    (second : Resumed K turns s' t' qs zs ds) (hmemory : s'.memory K.memo = t.memory K.memo)
    (hgrows : s.memory K.memo <+: t.memory K.memo) :
    Charges K (through K.memo ds) (qs.flatMap (owed S turns (s.memory K.memo))) ↔
      ∀ p ∈ qs, p ∈ ps → Reached (s.memory K.memo) p ∨ (turns (p.map S.see)).calls = [] := by
  rw [second.alike _ (hmemory ▸ hgrows), hmemory]
  constructor
  · intro h p hq hp
    by_cases hcalls : (turns (p.map S.see)).calls = []
    · exact .inr hcalls
    · exact h p hq ((first.reached p).2 (.inr ⟨hp, hcalls⟩))
  · intro h p hq hr
    rcases (first.reached p).1 hr with hr | ⟨hp, -⟩
    · exact .inl hr
    · exact h p hq hp

/-- A resumption that passes only what another has passed before it does not call the continuation. -/
theorem Resumed.silent {s t s' t' : Store} {ps qs : List (List Value)} {xs zs : List Value}
    {cs ds : List Call} (first : Resumed K turns s t ps xs cs)
    (second : Resumed K turns s' t' qs zs ds) (hgrows : t.memory K.memo <+: s'.memory K.memo)
    (hpassed : ∀ q ∈ qs, q ∈ ps) : through K.memo ds = [] := by
  have hcharged := second.charged
  have hnothing : qs.flatMap (owed S turns (s'.memory K.memo)) = [] := by
    refine List.flatMap_eq_nil_iff.2 fun q hq => ?_
    by_cases hr : Reached (s'.memory K.memo) q
    · exact owed_of_reached hr
    · rw [owed_of_not_reached hr]
      by_cases hcalls : (turns (q.map S.see)).calls = []
      · exact hcalls
      · have hreached := (first.reached q).2 (.inr ⟨hpassed q hq, hcalls⟩)
        exact absurd (hreached.mono hgrows) hr
  rw [hnothing] at hcharged
  obtain ⟨xs, hmade, hxs⟩ := hcharged
  rw [hmade, List.map_eq_nil_iff.1 hxs, List.map_nil]

end Sharing

section Program

variable {C : Course S} {K : Resumption S Unit} {turns : List V → Turn V Unit}
  {table : Handler.Table} {atLeaf : Option Value} {program implementation resume : Value}
  {tag : Nat} {name : String} {operands : List Value} {root : S.World}

end Program

section Delegate

end Delegate

end AlgebraicEffects
