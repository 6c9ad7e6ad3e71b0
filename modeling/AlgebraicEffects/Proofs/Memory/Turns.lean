import AlgebraicEffects.Proofs.Memory.Resume
import AlgebraicEffects.Proofs.Replay.Generators

/-!
Turns of a recorded body.

A recording generator stands around the generator of the implementation: it notes each answer before
it hands it on, so that resumptions are looked up by the answers received so far and counted anew
after each of them. One turn of it keeps the memory intact and adds to it only what belongs to the
turn; feeding it a history takes the turns of all histories on the way.
-/

set_option autoImplicit false

namespace AlgebraicEffects

open Action (Traced)

variable {V τ : Type} {S : Scene V}

section Notes

variable {C : Course S} (A : Look C τ) (K : Resumption S τ) (turns : List V → Turn V τ) (strict : Prop)

/-- Every entry of the memory is genuine and, where lookups are exact, no turn is there in part. -/
structure Intact (w : S.World) : Prop where
  allocated : K.memo < (S.store w).memos.size
  genuine : ∀ m ∈ (S.store w).memory K.memo, Genuine A K turns w m
  complete : strict → Complete S turns ((S.store w).memory K.memo)

/-- What runs through the turns of these histories do to the memory, which answers they hand to the
body, and which calls of the continuation they make. -/
structure Noted (s t : Store) (histories : List (List Value)) (answers : List Value)
    (cs : List Call) : Prop where
  grows : s.memory K.memo <+: t.memory K.memo
  fresh : strict → ∀ m ∈ t.memory K.memo, m ∈ s.memory K.memo ∨
    m.received ∈ histories ∧ ¬ Reached (s.memory K.memo) m.received ∧
      (turns (m.received.map S.see)).calls ≠ []
  reached : strict → ∀ ys ∈ histories, (turns (ys.map S.see)).calls ≠ [] →
    Reached (t.memory K.memo) ys
  received : received K.memo cs = answers
  charged : strict → Charges K (through K.memo cs)
    (histories.flatMap (owed S turns (s.memory K.memo)))

variable {A K turns strict}

theorem Reached.mono {memory memory' : List Remembered} {ys : List Value}
    (h : Reached memory ys) (hm : memory <+: memory') : Reached memory' ys := by
  obtain ⟨m, hmem, hys⟩ := h
  exact ⟨m, hm.subset hmem, hys⟩

theorem Intact.later {root w u : S.World} (hresumes : Resumes A K root)
    (h : Intact A K turns strict w) (hu : C.Later w u)
    (hmemory : (S.store u).memos[K.memo]? = (S.store w).memos[K.memo]?) :
    Intact A K turns strict u where
  allocated := Store.allocated_of_eq hmemory h.allocated
  genuine m hm := by
    rw [Store.memory_eq hmemory] at hm
    exact (h.genuine m hm).later hresumes hu
  complete hstrict := by
    rw [Store.memory_eq hmemory]
    exact h.complete hstrict

/-- Runs that have nothing to do with the memory are noted nowhere. -/
theorem noted_nil {s t : Store} {cs : List Call} (hcs : Quiet K.memo cs)
    (hmemory : t.memory K.memo = s.memory K.memo) : Noted K turns strict s t [] [] cs where
  grows := hmemory ▸ List.prefix_refl _
  fresh _ m hm := .inl (hmemory ▸ hm)
  reached _ _ hys := absurd hys List.not_mem_nil
  received := hcs.2
  charged _ := by rw [hcs.1]; exact charges_nil

/-- Runs through turns of different histories, one after the other. -/
theorem Noted.trans {s t u : Store} {ps qs : List (List Value)} {xs ys : List Value}
    {cs ds : List Call} (h : Noted K turns strict s t ps xs cs)
    (g : Noted K turns strict t u qs ys ds) (hdisjoint : ∀ p ∈ ps, ∀ q ∈ qs, p ≠ q) :
    Noted K turns strict s u (ps ++ qs) (xs ++ ys) (cs ++ ds) where
  grows := h.grows.trans g.grows
  fresh := by
    intro hstrict m hm
    rcases g.fresh hstrict m hm with ht | ⟨hmem, hnot, hcalls⟩
    · rcases h.fresh hstrict m ht with hs | ⟨hmem, hnot, hcalls⟩
      · exact .inl hs
      · exact .inr ⟨List.mem_append_left _ hmem, hnot, hcalls⟩
    · exact .inr ⟨List.mem_append_right _ hmem, fun hr => hnot (hr.mono h.grows), hcalls⟩
  reached := by
    intro hstrict ys hys hcalls
    rcases List.mem_append.1 hys with hys | hys
    · exact (h.reached hstrict ys hys hcalls).mono g.grows
    · exact g.reached hstrict ys hys hcalls
  received := by rw [received_append, h.received, g.received]
  charged := by
    intro hstrict
    rw [through_append, List.flatMap_append]
    have hsame : qs.flatMap (owed S turns (t.memory K.memo)) =
        qs.flatMap (owed S turns (s.memory K.memo)) := by
      rw [List.flatMap_def, List.flatMap_def]
      refine congrArg List.flatten (List.map_congr_left fun q hq => ?_)
      by_cases hs : Reached (s.memory K.memo) q
      · rw [owed_of_reached hs, owed_of_reached (hs.mono h.grows)]
      · have ht : ¬ Reached (t.memory K.memo) q := by
          rintro ⟨m, hm, rfl⟩
          rcases h.fresh hstrict m hm with hold | ⟨hmem, -, -⟩
          · exact hs ⟨m, hold, rfl⟩
          · exact hdisjoint _ hmem _ hq rfl
        rw [owed_of_not_reached hs, owed_of_not_reached ht]
    exact (h.charged hstrict).append (hsame ▸ g.charged hstrict)

/-- A whole turn leaves the memory intact and is noted. -/
theorem Making.noted {recording outer : Nat} {w u : S.World} {ys : List Value} {cs : List Call}
    (hcomplete : strict → Complete S turns ((S.store w).memory K.memo))
    (h : Making A K turns strict recording outer w ys (turns (ys.map S.see)).calls.length
      (through K.memo cs) u) (hreceived : received K.memo cs = []) :
    Intact A K turns strict u ∧ Noted K turns strict (S.store w) (S.store u) [ys] [] cs := by
  obtain ⟨ms, hms, hmade, hold, hnew⟩ := h.added
  have hgrows : (S.store w).memory K.memo <+: (S.store u).memory K.memo := ⟨ms, hms.symm⟩
  refine ⟨⟨h.allocated, h.genuine, fun hstrict => ?_⟩, hgrows, fun hstrict m hm => ?_,
    fun hstrict p hp hcalls => ?_, hreceived, fun hstrict => ?_⟩
  · intro m hm i hi
    rw [hms] at hm ⊢
    rcases List.mem_append.1 hm with hm | hm
    · obtain ⟨l, hl, hlm⟩ := hcomplete hstrict m hm i hi
      exact ⟨l, List.mem_append_left _ hl, hlm⟩
    · have hnot : ¬ Reached ((S.store w).memory K.memo) ys := by
        intro hr
        rw [hold hstrict hr] at hm
        exact List.not_mem_nil hm
      rw [hmade m hm] at hi ⊢
      have hrange : i ∈ ms.map (·.call) := by
        rw [hnew hstrict hnot]
        exact List.mem_range.2 hi
      obtain ⟨l, hl, hli⟩ := List.mem_map.1 hrange
      exact ⟨l, List.mem_append_right _ hl, hmade l hl, hli⟩
  · have hgenuine := h.genuine m hm
    rw [hms] at hm
    rcases List.mem_append.1 hm with hm | hm
    · exact .inl hm
    · refine .inr ⟨List.mem_singleton.2 (hmade m hm), ?_, ?_⟩
      · rw [hmade m hm]
        intro hr
        rw [hold hstrict hr] at hm
        exact List.not_mem_nil hm
      · intro hnil
        have hcall := hgenuine.call
        rw [hnil] at hcall
        cases hcall
  · rw [List.mem_singleton.1 hp] at hcalls ⊢
    by_cases hr : Reached ((S.store w).memory K.memo) ys
    · exact hr.mono hgrows
    · have hpos := List.length_pos_iff.2 hcalls
      have hrange : 0 ∈ ms.map (·.call) := by
        rw [hnew hstrict hr]
        exact List.mem_range.2 hpos
      obtain ⟨l, hl, -⟩ := List.mem_map.1 hrange
      exact ⟨l, hms ▸ List.mem_append_right _ hl, hmade l hl⟩
  · have hcharged := h.charged hstrict
    rw [List.flatMap_singleton]
    by_cases hr : Reached ((S.store w).memory K.memo) ys
    · rw [owed_of_reached hr, List.take_nil] at hcharged
      rw [owed_of_reached hr]
      exact hcharged
    · rw [owed_of_not_reached hr, List.take_length] at hcharged
      rw [owed_of_not_reached hr]
      exact hcharged

end Notes

section Books

variable {K : Resumption S τ}

theorem bookkeeping_setGenerator (s : Store) {address : Nat} (state : GeneratorState)
    (h : K.firstGenerator ≤ address) : Bookkeeping K s (s.setGenerator address state) where
  rest := rfl
  memos _ _ := rfl
  recordings _ _ := rfl
  generators i hi := by
    have hne : address ≠ i := by omega
    simp [Store.setGenerator, Array.getElem?_setIfInBounds_ne hne]
  recordings_le := Nat.le_refl _
  generators_le := by simp

theorem bookkeeping_noteAnswer (s : Store) {recording : Nat} (answer : Value)
    (h : K.firstRecording ≤ recording) : Bookkeeping K s (s.noteAnswer recording answer) where
  rest := rfl
  memos _ _ := rfl
  recordings i hi := by
    have hne : recording ≠ i := by omega
    simp [Store.noteAnswer, Array.getElem?_modify, hne]
  generators _ _ := rfl
  recordings_le := by simp [Store.noteAnswer]
  generators_le := Nat.le_refl _

theorem Store.getElem?_setGenerator (s : Store) {address : Nat} (state : GeneratorState)
    (h : address < s.generators.size) :
    (s.setGenerator address state).generators[address]? = some state := by
  simp [setGenerator, h]

theorem Store.getElem?_setGenerator_of_ne (s : Store) {address other : Nat}
    (state : GeneratorState) (h : address ≠ other) :
    (s.setGenerator address state).generators[other]? = s.generators[other]? := by
  simp [setGenerator, Array.getElem?_setIfInBounds_ne h]

end Books

section Turn

variable {C : Course S} {A : Look C τ} {K : Resumption S τ} {turns : List V → Turn V τ} {strict : Prop}
  {root : S.World} {implementation : Value} {params : List V} {recording outer g : Nat}

/-- One turn of the implementation's generator, while the recording generator around it runs. -/
theorem exists_turn (hset : Setting A K root strict)
    (P : Performs A K strict root implementation params turns
      (.rememberedResume K.memo recording K.continuation))
    {w : S.World} {ys : List Value} {a : Value} (hroot : C.Later root w)
    (hintact : Intact A K turns strict w) (hready : P.Ready g (ys.map S.see) a w)
    (hne : g ≠ outer) (hrecording : K.firstRecording ≤ recording)
    (houter : K.firstGenerator ≤ outer)
    (hplace : (S.store w).recordings[recording]? = some ⟨ys, 0⟩)
    (hrunning : (S.store w).generators[outer]? = some .running)
    (hys : ∀ y ∈ ys, S.Known w y) (hstops : (turns (ys.map S.see)).pause ≠ .diverges) :
    ∃ cs r u, Traced (Generator.advanceBody g a) (S.store w) cs r (S.store u) ∧
      Halts A (P.Ready g) g (ys.map S.see) u r (turns (ys.map S.see)).pause ∧
      C.Later w u ∧ Intact A K turns strict u ∧
      Noted K turns strict (S.store w) (S.store u) [ys] [] cs ∧
      (∃ n, (S.store u).recordings[recording]? = some ⟨ys, n⟩) ∧
      (S.store u).generators[outer]? = some .running := by
  have hbegin : Making A K turns strict recording outer w ys 0 [] w := {
    later := C.refl w
    allocated := hintact.allocated
    place := hplace
    running := hrunning
    genuine := hintact.genuine
    added := ⟨[], (List.append_nil _).symm, fun m hm => absurd hm List.not_mem_nil,
      fun _ _ => rfl, fun _ _ => rfl⟩
    charged := fun _ => charges_nil }
  have hown : some g ≠ some outer := fun h => hne (Option.some.inj h)
  obtain ⟨cs, r, t, z, htr, ⟨u, hu, hstore, hhalts⟩, hreceived, hmaking⟩ :=
    Does.run (fun _ => rfl) (turns (ys.map S.see)).calls
      (fun i made u => Making A K turns strict recording outer w ys i made u)
      (fun i made u z hz h => h.aside hset.resumes hrecording houter hown hz)
      (fun i made u x tag arguments h hcall hasked harg =>
        h.resume hset hroot hintact.complete hrecording houter
          (fun y hy => C.known h.later (hys y hy)) tag harg hasked hcall)
      (P.continues w g _ a hroot hready hstops) 0 [] [] (List.append_nil _).symm hbegin
  have hend := hmaking.aside hset.resumes hrecording houter hown hu
  rw [Nat.zero_add, List.nil_append] at hend
  obtain ⟨hintact', hnoted⟩ := hend.noted hintact.complete hreceived
  subst hstore
  exact ⟨cs, r, u, htr, hhalts, hend.later, hintact', hnoted, ⟨_, hend.place⟩, hend.running⟩

/-- Between two answers: the recording generator is suspended around a generator that has received
the answers that the recording holds and is ready for every next one. -/
structure Waiting (strict : Prop)
    (P : Performs A K strict root implementation params turns
      (.rememberedResume K.memo recording K.continuation))
    (outer g : Nat) (w : S.World) (ys : List Value) : Prop where
  intact : Intact A K turns strict w
  outer : (S.store w).generators[outer]? = some (.recordingSuspended recording g)
  place : ∃ n, (S.store w).recordings[recording]? = some ⟨ys, n⟩
  ready : ∀ u b, C.Later w u → (S.store u).generators[g]? = (S.store w).generators[g]? →
    S.Known u b → P.Ready g (ys.map S.see ++ [S.see b]) b u

/-- How the recording generator stops at a pause. -/
inductive Paused (strict : Prop)
    (P : Performs A K strict root implementation params turns
      (.rememberedResume K.memo recording K.continuation))
    (outer g : Nat) (w : S.World) (ys : List Value) :
    Except Failure Generator.Progress → Pause τ → Prop where
  | yielded {v : Value} {p : τ} : A.Is w (.ok v) p →
      Waiting strict P outer g w ys → Paused strict P outer g w ys (.ok (.yielded v)) (.yields p)
  | returned {v : Value} {t : τ} : A.Is w (.ok v) t →
      Paused strict P outer g w ys (.ok (.returned v)) (.ends t)
  | failed {f : Failure} {t : τ} : A.Is w (.error f) t →
      Paused strict P outer g w ys (.error f) (.ends t)

/-- A turn of the generator inside is one step of the recording generator, whichever way this has
come to advance it. -/
theorem exists_paused (hset : Setting A K root strict)
    (P : Performs A K strict root implementation params turns
      (.rememberedResume K.memo recording K.continuation))
    {w : S.World} (s : Store) {ys : List Value} (a answer : Value) (pre : List Call)
    (hroot : C.Later root w) (hintact : Intact A K turns strict w) (hready : P.Ready g (ys.map S.see) a w)
    (hne : g ≠ outer) (hrecording : K.firstRecording ≤ recording)
    (houter : K.firstGenerator ≤ outer)
    (hplace : (S.store w).recordings[recording]? = some ⟨ys, 0⟩)
    (hrunning : (S.store w).generators[outer]? = some .running)
    (hys : ∀ y ∈ ys, S.Known w y) (hstops : (turns (ys.map S.see)).pause ≠ .diverges)
    (hpre : Quiet K.memo pre)
    (hok : ∀ cs v t, Traced (Generator.advanceBody g a) (S.store w) cs (.ok v) t →
      Traced (Generator.advance outer answer) s (pre ++ cs) (.ok v)
        (t.setGenerator outer (.recordingSuspended recording g)))
    (herror : ∀ cs f t, Traced (Generator.advanceBody g a) (S.store w) cs (.error f) t →
      Traced (Generator.advance outer answer) s (pre ++ cs) (.error f)
        (t.setGenerator outer .finished)) :
    ∃ cs p u, Traced (Generator.progress outer answer) s cs p (S.store u) ∧ C.Later w u ∧
      Intact A K turns strict u ∧ Noted K turns strict (S.store w) (S.store u) [ys] [] cs ∧
      Paused strict P outer g u ys p (turns (ys.map S.see)).pause := by
  obtain ⟨cs, r, u, htr, hhalts, hu, hintact', hnoted, hplace', hrunning'⟩ :=
    exists_turn hset P hroot hintact hready hne hrecording houter hplace hrunning hys hstops
  have hrootu := C.trans hroot hu
  have hlt := (Array.getElem?_eq_some_iff.1 hrunning').1
  have hbooks : ∀ state, ∃ z, C.Later u z ∧ S.store z = (S.store u).setGenerator outer state :=
    fun state => hset.books u _ hrootu (bookkeeping_setGenerator (S.store u) state houter)
  have hnoted' : ∀ z state, S.store z = (S.store u).setGenerator outer state →
      Noted K turns strict (S.store w) (S.store z) [ys] [] (pre ++ cs) := by
    intro z state hz
    have hidle : Noted K turns strict (S.store w) (S.store w) [] [] pre := noted_nil hpre rfl
    have hlast : Noted K turns strict (S.store u) (S.store z) [] [] [] :=
      noted_nil ⟨rfl, rfl⟩ (by rw [hz]; rfl)
    have hall := (hidle.trans hnoted fun _ hp => absurd hp List.not_mem_nil).trans hlast
      fun _ _ _ hq => absurd hq List.not_mem_nil
    simp only [List.append_nil, List.nil_append] at hall
    exact hall
  generalize (turns (ys.map S.see)).pause = pause at hhalts ⊢
  cases hhalts with
  | @yields v p his hnext =>
    obtain ⟨z, hz, hstore⟩ := hbooks (.recordingSuspended recording g)
    have hsame : (S.store z).generators[g]? = (S.store u).generators[g]? := by
      rw [hstore]
      exact Store.getElem?_setGenerator_of_ne _ _ hne.symm
    refine ⟨pre ++ cs, .ok (.yielded v), z, ?_, C.trans hu hz,
      hintact'.later hset.resumes hz (by rw [hstore]; rfl), hnoted' z _ hstore,
      .yielded (A.later hz his) ?_⟩
    · rw [hstore]
      exact Generator.traced_progress_yielded (hok cs v _ htr)
    · exact {
        intact := hintact'.later hset.resumes hz (by rw [hstore]; rfl)
        outer := by rw [hstore]; exact Store.getElem?_setGenerator _ _ hlt
        place := by rw [hstore]; exact hplace'
        ready := fun y b hy hg hb => hnext y b (C.trans hz hy) (hg.trans hsame) hb }
  | @returns v t his =>
    obtain ⟨z, hz, hstore⟩ := hbooks .finished
    refine ⟨pre ++ cs, .ok (.returned v), z, ?_, C.trans hu hz,
      hintact'.later hset.resumes hz (by rw [hstore]; rfl), hnoted' z _ hstore,
      .returned (A.later hz his)⟩
    rw [hstore]
    exact Generator.traced_progress_returned (herror cs _ _ htr)
  | @fails f t hf his =>
    obtain ⟨z, hz, hstore⟩ := hbooks .finished
    refine ⟨pre ++ cs, .error f, z, ?_, C.trans hu hz,
      hintact'.later hset.resumes hz (by rw [hstore]; rfl), hnoted' z _ hstore,
      .failed (A.later hz his)⟩
    rw [hstore]
    exact Generator.traced_progress_failed hf (herror cs _ _ htr)

end Turn

end AlgebraicEffects
