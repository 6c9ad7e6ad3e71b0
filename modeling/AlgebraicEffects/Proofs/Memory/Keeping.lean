import AlgebraicEffects.Proofs.Memory.Replays

/-!
Keeping the memory.

Whoever runs the program of an evaluation may do with the world what it likes, as long as the memory
stays intact and loses nothing; a replay is such a step itself. Replays are made by the factory of the
evaluation, which gives each of them a recording of its own.
-/

set_option autoImplicit false

namespace AlgebraicEffects

open Action (Traced)

variable {V τ : Type} {S : Scene V}

section Keeping

variable {C : Course S} (A : Look C τ) (K : Resumption S τ) (turns : List V → Turn V τ)
  (strict : Prop) {root : S.World} (hresumes : Resumes A K root)

/-- The steps after which an intact memory is still intact and has all that it had. -/
def Keeps (w u : S.World) : Prop :=
  C.Later w u ∧ (Intact A K turns strict w → Intact A K turns strict u ∧
    (S.store w).memory K.memo <+: (S.store u).memory K.memo)

variable {A K turns strict}

theorem Keeps.refl (w : S.World) : Keeps A K turns strict w w :=
  ⟨C.refl w, fun h => ⟨h, List.prefix_refl _⟩⟩

theorem Keeps.trans {w u z : S.World} (h : Keeps A K turns strict w u)
    (g : Keeps A K turns strict u z) : Keeps A K turns strict w z := by
  refine ⟨C.trans h.1 g.1, fun hw => ?_⟩
  obtain ⟨hintact, hgrows⟩ := h.2 hw
  obtain ⟨hintact', hgrows'⟩ := g.2 hintact
  exact ⟨hintact', hgrows.trans hgrows'⟩

include hresumes in
/-- A step of others keeps the memory. -/
theorem Untouched.keeps {w u : S.World} (h : Untouched C K w u) : Keeps A K turns strict w u :=
  ⟨h.1, fun hw => ⟨hw.later hresumes h.1 h.2,
    (Store.memory_eq h.2).symm ▸ List.prefix_refl _⟩⟩

variable (A K turns strict)

/-- The course of the steps that keep the memory. -/
def Course.keeping : Course S where
  Later := Keeps A K turns strict
  refl := Keeps.refl
  trans := Keeps.trans
  known h hv := C.known h.1 hv
  fit h hv := C.fit h.1 hv
  identified w v := by
    obtain ⟨u, hu, hstore, hknown⟩ := C.identified w v
    obtain ⟨n, -, hn⟩ := Store.identify_snd (S.store w) v
    have hsame : Untouched C K w u := ⟨hu, by rw [hstore, hn]; rfl⟩
    exact ⟨u, hsame.keeps hresumes, hstore, hknown⟩
  identifiedAll w call := by
    obtain ⟨u, hu, hstore⟩ := C.identifiedAll w call
    obtain ⟨n, -, hn⟩ := Store.identifyAll_snd (S.store w) call
    have hsame : Untouched C K w u := ⟨hu, by rw [hstore, hn]; rfl⟩
    exact ⟨u, hsame.keeps hresumes, hstore⟩

end Keeping

section Replaying

variable {C : Course S} {A : Look C τ} {K : Resumption S τ} {turns : List V → Turn V τ}
  {strict : Prop} {root : S.World} {implementation : Value} {params : List V}

theorem isForeign_of_isGeneratorFunction (h : implementation.isGeneratorFunction = true)
    (memo : Nat) : implementation.isForeign memo = true := by
  unfold Value.isGeneratorFunction at h
  split at h
  · rename_i tag f
    cases f <;> first | rfl | cases h
  · cases h

theorem bookkeeping_record (s : Store) (place : Recording)
    (h : K.firstRecording ≤ s.recordings.size) :
    Bookkeeping K s { s with recordings := s.recordings.push place } where
  rest := rfl
  memos _ _ := rfl
  recordings i hi := by
    have hne : i ≠ s.recordings.size := by omega
    simp [Array.getElem?_push, hne]
  generators _ _ := rfl
  recordings_le := by simp
  generators_le := Nat.le_refl _

theorem bookkeeping_addGenerator (s : Store) (state : GeneratorState)
    (h : K.firstGenerator ≤ s.generators.size) : Bookkeeping K s (s.addGenerator state) where
  rest := rfl
  memos _ _ := rfl
  recordings _ _ := rfl
  generators i hi := by
    have hne : i ≠ s.generators.size := by omega
    simp [Store.addGenerator, Array.getElem?_push, hne]
  recordings_le := Nat.le_refl _
  generators_le := by simp

/-- Calling the factory of an evaluation makes a recording and a generator that will record in it. -/
theorem traced_remembering (memo : Nat) (implementation continuation : Value)
    (positional : List Value) (s : Store) :
    Traced (Action.invoke (.arrowOf (.remembering memo implementation positional continuation))
        ⟨[], []⟩) s
      [.mk (.arrowOf (.remembering memo implementation positional continuation)) ⟨[], []⟩ []]
      (.ok (.generator s.generators.size "recording"))
      (Store.addGenerator { s with recordings := s.recordings.push ⟨[], 0⟩ }
        (.recording s.recordings.size implementation (positional ++
          [.arrowOf (.rememberedResume memo s.recordings.size continuation)]))) :=
  Traced.invoke (.read (.write (.read (.write (.done _ _)))))

/-- The factory of an evaluation. -/
def Resumption.factory (K : Resumption S τ) (implementation : Value) (positional : List Value) :
    Value :=
  .arrowOf (.remembering K.memo implementation positional K.continuation)

/-- The world in which the factory has made a generator. -/
theorem exists_made (hset : Setting A K root strict) {w : S.World} (hroot : C.Later root w)
    (hrecordings : K.firstRecording ≤ (S.store w).recordings.size)
    (hgenerators : K.firstGenerator ≤ (S.store w).generators.size) (positional : List Value) :
    ∃ cs recording outer u, Traced (Action.invoke (K.factory implementation positional) ⟨[], []⟩)
        (S.store w) cs (.ok (.generator outer "recording")) (S.store u) ∧
      Untouched C K w u ∧ Quiet K.memo cs ∧ K.firstRecording ≤ recording ∧
      K.firstGenerator ≤ outer ∧
      (S.store u).generators[outer]? = some (.recording recording implementation (positional ++
        [.arrowOf (.rememberedResume K.memo recording K.continuation)])) ∧
      (S.store u).recordings[recording]? = some ⟨[], 0⟩ := by
  have hmade := traced_remembering K.memo implementation K.continuation positional (S.store w)
  generalize hrec : (S.store w).recordings.size = recording at hmade hrecordings
  generalize hout : (S.store w).generators.size = outer at hmade hgenerators
  obtain ⟨w₁, hw₁, hstore₁⟩ := hset.books w _ hroot
    (bookkeeping_record (S.store w) ⟨[], 0⟩ (hrec ▸ hrecordings))
  obtain ⟨w₂, hw₂, hstore₂⟩ := hset.books w₁ _ (C.trans hroot hw₁)
    (bookkeeping_addGenerator (S.store w₁) (.recording recording implementation (positional ++
      [.arrowOf (.rememberedResume K.memo recording K.continuation)]))
      (by rw [hstore₁]; exact hout ▸ hgenerators))
  rw [hstore₁] at hstore₂
  rw [← hstore₂] at hmade
  refine ⟨_, recording, outer, w₂, hmade, ⟨C.trans hw₁ hw₂, by rw [hstore₂]; rfl⟩, ⟨rfl, rfl⟩,
    hrecordings, hgenerators, ?_, ?_⟩
  · rw [hstore₂]
    simp [Store.addGenerator, ← hout]
  · rw [hstore₂]
    simp [Store.addGenerator, ← hrec]

/-- A replay by the factory makes a generator. Fed answers that the turns await, it stops where the
turns do and passes all histories on the way; if the turn that it comes to never ends, neither does
the feeding. -/
theorem exists_replayed (hset : Setting A K root strict)
    (P : ∀ recording, Performs A K strict root implementation params turns
      (.rememberedResume K.memo recording K.continuation))
    (hcallee : implementation.isForeign K.memo = true) {w : S.World} {positional ys : List Value}
    (hroot : C.Later root w) (hrecordings : K.firstRecording ≤ (S.store w).recordings.size)
    (hgenerators : K.firstGenerator ≤ (S.store w).generators.size)
    (hintact : Intact A K turns strict w) (hpositional : positional.map S.see = params)
    (hknown : ∀ y ∈ ys, S.Known w y) (hawaits : (coroutineOf turns).Awaits (ys.map S.see)) :
    ∃ cs outer s, Traced (Action.invoke (K.factory implementation positional) ⟨[], []⟩) (S.store w)
        cs (.ok (.generator outer "recording")) s ∧
      (coroutineOf turns (ys.map S.see) ≠ .diverges →
        ∃ fed u ds, Traced (Replay.sent outer ys) s ds fed (S.store u) ∧ C.Later w u ∧
          Intact A K turns strict u ∧
          Noted K turns strict (S.store w) (S.store u) ([] :: passed [] ys) [] (cs ++ ds) ∧
          Stops A.Is u ys.length fed (coroutineOf turns (ys.map S.see))) ∧
      (coroutineOf turns (ys.map S.see) = .diverges →
        ∀ ds r t, ¬ Traced (Replay.sent outer ys) s ds r t) := by
  obtain ⟨cs, recording, outer, w', hmade, hw', hquiet, hrecording, houter, hstate, hplace⟩ :=
    @exists_made _ _ _ _ A K _ root implementation hset w hroot hrecordings hgenerators positional
  have hroot' := C.trans hroot hw'.1
  have hintact' := hintact.later hset.resumes hw'.1 hw'.2
  have hknown' : ∀ y ∈ ys, S.Known w' y := fun y hy => C.known hw'.1 (hknown y hy)
  refine ⟨cs, outer, S.store w', hmade, fun hstops => ?_, fun hdiverges => ?_⟩
  · obtain ⟨fed, u, ds, hsent, hu, hintact'', hnoted, hstop⟩ :=
      exists_sent hset (P _) hcallee hrecording houter hroot' hintact' hpositional hstate hplace
        hknown' hawaits hstops
    exact ⟨fed, u, ds, hsent, C.trans hw'.1 hu, hintact'',
      hnoted.before hquiet (Store.memory_eq hw'.2), hstop⟩
  · exact not_sent hset (P _) hcallee hrecording houter hroot' hintact' hpositional hstate hplace
      hknown' hawaits hdiverges

end Replaying

end AlgebraicEffects
