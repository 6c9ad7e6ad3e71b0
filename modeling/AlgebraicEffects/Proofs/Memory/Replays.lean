import AlgebraicEffects.Proofs.Memory.Turns

/-!
Replays of a recorded body.

A replay makes a recording and a generator around it, starts the generator and feeds it a history. It
takes the turns of all histories on the way, each once and in order. What it notes of them is kept in
a ledger: a history that was held before the replay has nothing new to note, so a resumption of the
built program is charged for the histories that it passes first.
-/

set_option autoImplicit false

namespace AlgebraicEffects

open Action (Traced)

variable {V τ : Type} {S : Scene V}

section Feeding

variable {C : Course S} {A : Look C τ} {K : Resumption S τ} {turns : List V → Turn V τ} {strict : Prop}
  {root : S.World} {implementation : Value} {params : List V} {recording outer g : Nat}
  {P : Performs A K strict root implementation params turns
    (.rememberedResume K.memo recording K.continuation)}

/-- What happens before a run that is noted, and leaves the memory alone, is noted with it. -/
theorem Noted.before {s t u : Store} {histories : List (List Value)} {answers : List Value}
    {cs ds : List Call} (h : Noted K turns strict t u histories answers ds) (hcs : Quiet K.memo cs)
    (hmemory : t.memory K.memo = s.memory K.memo) :
    Noted K turns strict s u histories answers (cs ++ ds) :=
  (noted_nil hcs hmemory).trans h fun _ hp => absurd hp List.not_mem_nil

/-- A run is noted from every store with the same memory on. -/
theorem Noted.since {s t u : Store} {histories : List (List Value)} {answers : List Value}
    {cs : List Call} (h : Noted K turns strict t u histories answers cs)
    (hmemory : t.memory K.memo = s.memory K.memo) :
    Noted K turns strict s u histories answers cs := by
  show Noted K turns strict s u histories answers ([] ++ cs)
  exact h.before ⟨rfl, rfl⟩ hmemory

/-- One answer more is noted in the recording, for which the generator inside is ready. -/
theorem Waiting.answered (hset : Setting A K root strict) (hne : g ≠ outer)
    (hrecording : K.firstRecording ≤ recording) (houter : K.firstGenerator ≤ outer) {w : S.World}
    {ys : List Value} {z : Value} (hroot : C.Later root w) (h : Waiting strict P outer g w ys)
    (hz : S.Known w z) :
    ∃ u, C.Later w u ∧
      S.store u = ((S.store w).setGenerator outer .running).noteAnswer recording z ∧
      Intact A K turns strict u ∧ P.Ready g ((ys ++ [z]).map S.see) z u ∧
      (S.store u).recordings[recording]? = some ⟨ys ++ [z], 0⟩ ∧
      (S.store u).generators[outer]? = some .running := by
  obtain ⟨w₁, hw₁, hstore₁⟩ := hset.books w _ hroot
    (bookkeeping_setGenerator (S.store w) .running houter)
  obtain ⟨w₂, hw₂, hstore₂⟩ := hset.books w₁ _ (C.trans hroot hw₁)
    (bookkeeping_noteAnswer (S.store w₁) z hrecording)
  rw [hstore₁] at hstore₂
  have hlater := C.trans hw₁ hw₂
  have hlt := (Array.getElem?_eq_some_iff.1 h.outer).1
  have hsame : (S.store w₂).generators[g]? = (S.store w).generators[g]? := by
    rw [hstore₂]
    exact Store.getElem?_setGenerator_of_ne _ _ hne.symm
  have hready := h.ready w₂ z hlater hsame (C.known hlater hz)
  obtain ⟨n, hplace⟩ := h.place
  refine ⟨w₂, hlater, hstore₂, h.intact.later hset.resumes hlater (by rw [hstore₂]; rfl), ?_, ?_, ?_⟩
  · rwa [List.map_append]
  · rw [hstore₂]
    simp [Store.noteAnswer, Store.setGenerator, Array.getElem?_modify, hplace]
  · rw [hstore₂]
    exact Store.getElem?_setGenerator _ _ hlt

/-- The generator inside takes the turn of one answer more. -/
theorem Waiting.advance (hset : Setting A K root strict) (hne : g ≠ outer)
    (hrecording : K.firstRecording ≤ recording) (houter : K.firstGenerator ≤ outer) {w : S.World}
    {ys : List Value} {z : Value} (hroot : C.Later root w) (h : Waiting strict P outer g w ys)
    (hknown : ∀ y ∈ ys ++ [z], S.Known w y)
    (hstops : (turns ((ys ++ [z]).map S.see)).pause ≠ .diverges) :
    ∃ cs p u, Traced (Generator.progress outer z) (S.store w) cs p (S.store u) ∧ C.Later w u ∧
      Intact A K turns strict u ∧
      Noted K turns strict (S.store w) (S.store u) [ys ++ [z]] [] cs ∧
      Paused strict P outer g u (ys ++ [z]) p (turns ((ys ++ [z]).map S.see)).pause := by
  obtain ⟨w', hlater, hstore, hintact, hready, hplace, hrunning⟩ :=
    h.answered hset hne hrecording houter hroot (hknown z (by simp))
  obtain ⟨cs, p, u, htr, hu, hintact', hnoted, hpaused⟩ :=
    exists_paused hset P (S.store w) z z [] (C.trans hroot hlater) hintact hready hne hrecording
      houter hplace hrunning (fun y hy => C.known hlater (hknown y hy)) hstops ⟨rfl, rfl⟩
      (fun cs v t hrun => Generator.traced_advance_recorded (Store.generatorAt_eq h.outer)
        (hstore ▸ hrun))
      (fun cs f t hrun => Generator.traced_advance_recorded_error (Store.generatorAt_eq h.outer)
        (hstore ▸ hrun))
  exact ⟨cs, p, u, htr, C.trans hlater hu, hintact', hnoted.since (by rw [hstore]; rfl), hpaused⟩

theorem Waiting.not_advance (hset : Setting A K root strict) (hne : g ≠ outer)
    (hrecording : K.firstRecording ≤ recording) (houter : K.firstGenerator ≤ outer) {w : S.World}
    {ys : List Value} {z : Value} (hroot : C.Later root w) (h : Waiting strict P outer g w ys)
    (hz : S.Known w z) (hdiverges : (turns ((ys ++ [z]).map S.see)).pause = .diverges)
    (cs : List Call) (r : Except Failure Generator.Progress) (t : Store) :
    ¬ Traced (Generator.progress outer z) (S.store w) cs r t := by
  intro hrun
  obtain ⟨w', hlater, hstore, -, hready, -, -⟩ := h.answered hset hne hrecording houter hroot hz
  obtain ⟨ds, q, u, hadvance⟩ := Generator.exists_of_progress hrun
  obtain ⟨es, q, v, hbody⟩ :=
    Generator.exists_of_advance_recorded hadvance (Store.generatorAt_eq h.outer)
  rw [← hstore] at hbody
  exact P.diverges w' g _ z (C.trans hroot hlater) hready hdiverges es q v hbody

/-- The turn of an answer ends if the whole feeding does, and unless it is the last one it yields. -/
theorem turn_of_awaits {ys zs : List Value} {z : Value}
    (hawaits : (coroutineOf turns).Awaits ((ys ++ [z] ++ zs).map S.see))
    (hstops : coroutineOf turns ((ys ++ [z] ++ zs).map S.see) ≠ .diverges) :
    (turns ((ys ++ [z]).map S.see)).pause ≠ .diverges ∧
      ((∀ t, (turns ((ys ++ [z]).map S.see)).pause ≠ .yields t) → zs = []) := by
  by_cases hzs : zs = []
  · subst hzs
    rw [List.append_nil] at hstops
    exact ⟨hstops, fun _ => rfl⟩
  · obtain ⟨t, ht⟩ : ∃ t, (turns ((ys ++ [z]).map S.see)).pause = .yields t :=
      (List.map_append ▸ hawaits).yields (by simpa using hzs)
    refine ⟨?_, fun hno => absurd ht (hno t)⟩
    rw [ht]
    exact nofun

/-- A generator that is fed answers passes their histories. The induction is on the answers that are
still to come. -/
theorem exists_fed (hset : Setting A K root strict) (hne : g ≠ outer)
    (hrecording : K.firstRecording ≤ recording) (houter : K.firstGenerator ≤ outer)
    (zs : List Value) : ∀ ys w k x p, C.Later root w → Waiting strict P outer g w ys →
      A.Is w (.ok x) p → (turns (ys.map S.see)).pause = .yields p →
      (∀ z ∈ ys ++ zs, S.Known w z) → (coroutineOf turns).Awaits ((ys ++ zs).map S.see) →
      coroutineOf turns ((ys ++ zs).map S.see) ≠ .diverges →
      ∃ fed u cs, Traced (Replay.feed outer x k zs) (S.store w) cs fed (S.store u) ∧ C.Later w u ∧
        Intact A K turns strict u ∧
        Noted K turns strict (S.store w) (S.store u) (passed ys zs) [] cs ∧
        Stops A.Is u (k + zs.length) fed (coroutineOf turns ((ys ++ zs).map S.see)) := by
  induction zs with
  | nil =>
    intro ys w k x p hroot hwaiting his hp _ _ _
    refine ⟨.ok (.yielded x), w, [], Replay.traced_feed_nil _ _ _ _, C.refl w, hwaiting.intact,
      noted_nil ⟨rfl, rfl⟩ rfl, ?_⟩
    rw [List.append_nil]
    show Stops _ _ _ _ (turns _).pause
    rw [hp]
    exact .yielded his
  | cons z zs ih =>
    intro ys w k x p hroot hwaiting his hp hknown hawaits hstops
    have hsplit : ys ++ z :: zs = (ys ++ [z]) ++ zs := by simp
    rw [hsplit] at hknown hawaits hstops ⊢
    obtain ⟨hstops', hlast⟩ := turn_of_awaits hawaits hstops
    obtain ⟨cs, fed, u, htr, hu, hintact, hnoted, hpaused⟩ :=
      hwaiting.advance hset hne hrecording houter hroot
        (fun y hy => hknown y (List.mem_append_left _ hy)) hstops'
    have hcount : k + (z :: zs).length = k + 1 + zs.length := by
      rw [List.length_cons]
      omega
    generalize hpause : (turns ((ys ++ [z]).map S.see)).pause = pause at hpaused hlast
    cases hpaused with
    | @yielded v q hq hnext =>
      obtain ⟨fed, y, ds, hfed, hy, hintact', hnoted', hstop⟩ :=
        ih (ys ++ [z]) u (k + 1) v q (C.trans hroot hu) hnext hq hpause
          (fun a ha => C.known hu (hknown a ha)) hawaits hstops
      refine ⟨fed, y, cs ++ ds, Replay.traced_feed_cons htr hfed, C.trans hu hy, hintact', ?_, ?_⟩
      · refine hnoted.trans hnoted' fun a ha b hb hab => ?_
        rw [List.mem_singleton.1 ha] at hab
        have hlength := (length_of_mem_passed hb).1
        rw [← hab] at hlength
        exact Nat.lt_irrefl _ hlength
      · rw [hcount]
        exact hstop
    | @returned v t ht =>
      have hzs : zs = [] := hlast fun _ ht => by cases ht
      subst hzs
      refine ⟨.ok (.returned v (k + 1)), u, cs, Replay.traced_feed_returned htr, hu, hintact,
        hnoted, ?_⟩
      rw [List.append_nil]
      show Stops _ _ _ _ (turns _).pause
      rw [hpause]
      exact .returned ht
    | @failed f t ht =>
      have hzs : zs = [] := hlast fun _ ht => by cases ht
      subst hzs
      refine ⟨.error f, u, cs, Replay.traced_feed_failed htr, hu, hintact, hnoted, ?_⟩
      rw [List.append_nil]
      show Stops _ _ _ _ (turns _).pause
      rw [hpause]
      exact .failed ht

/-- A generator that is fed answers up to a turn that never ends is fed for ever. -/
theorem not_fed (hset : Setting A K root strict) (hne : g ≠ outer)
    (hrecording : K.firstRecording ≤ recording) (houter : K.firstGenerator ≤ outer)
    (zs : List Value) : ∀ ys w k x p, C.Later root w → Waiting strict P outer g w ys →
      (turns (ys.map S.see)).pause = .yields p →
      (∀ z ∈ ys ++ zs, S.Known w z) → (coroutineOf turns).Awaits ((ys ++ zs).map S.see) →
      coroutineOf turns ((ys ++ zs).map S.see) = .diverges →
      ∀ cs r t, ¬ Traced (Replay.feed outer x k zs) (S.store w) cs r t := by
  induction zs with
  | nil =>
    intro ys w k x p _ _ hp _ _ hdiverges
    rw [List.append_nil] at hdiverges
    cases hp.symm.trans hdiverges
  | cons z zs ih =>
    intro ys w k x p hroot hwaiting hp hknown hawaits hdiverges cs r t hrun
    have hsplit : ys ++ z :: zs = (ys ++ [z]) ++ zs := by simp
    rw [hsplit] at hknown hawaits hdiverges
    obtain ⟨ds, q, v, hfirst⟩ := Traced.exists_of_bind hrun
    by_cases hstops : (turns ((ys ++ [z]).map S.see)).pause = .diverges
    · exact hwaiting.not_advance hset hne hrecording houter hroot (hknown z (by simp)) hstops
        ds q v hfirst
    · obtain ⟨ds, fed, u, htr, hu, -, -, hpaused⟩ :=
        hwaiting.advance hset hne hrecording houter hroot
          (fun y hy => hknown y (List.mem_append_left _ hy)) hstops
      have hnext : zs ≠ [] := by
        rintro rfl
        rw [List.append_nil] at hdiverges
        exact hstops hdiverges
      obtain ⟨q, hq⟩ : ∃ t, (turns ((ys ++ [z]).map S.see)).pause = .yields t :=
        (List.map_append ▸ hawaits).yields (by simpa using hnext)
      rw [hq] at hpaused
      cases hpaused with
      | @yielded v _ _ hnext =>
        obtain ⟨es, -, hrest⟩ := Traced.of_bind hrun htr
        exact ih (ys ++ [z]) u (k + 1) v q (C.trans hroot hu) hnext hq
          (fun a ha => C.known hu (hknown a ha)) hawaits hdiverges es r t hrest

/-- A recording generator that is started makes the generator of the implementation, which is ready
for its first turn. -/
theorem exists_started (hset : Setting A K root strict)
    (P : Performs A K strict root implementation params turns
      (.rememberedResume K.memo recording K.continuation))
    (hrecording : K.firstRecording ≤ recording) (houter : K.firstGenerator ≤ outer) {w : S.World}
    {positional : List Value} (hroot : C.Later root w) (hintact : Intact A K turns strict w)
    (hpositional : positional.map S.see = params)
    (hstate : (S.store w).generators[outer]? = some (.recording recording implementation
      (positional ++ [.arrowOf (.rememberedResume K.memo recording K.continuation)])))
    (hplace : (S.store w).recordings[recording]? = some ⟨[], 0⟩) :
    ∃ cs g name u, Traced (implementation.apply (.of (positional ++
        [.arrowOf (.rememberedResume K.memo recording K.continuation)])))
        ((S.store w).setGenerator outer .running) cs (.ok (.generator g name)) (S.store u) ∧
      Untouched C K w u ∧ Quiet K.memo cs ∧ Intact A K turns strict u ∧ g ≠ outer ∧
      P.Ready g [] .nothing u ∧ (S.store u).recordings[recording]? = some ⟨[], 0⟩ ∧
      (S.store u).generators[outer]? = some .running := by
  obtain ⟨w₁, hw₁, hstore₁⟩ := hset.books w _ hroot
    (bookkeeping_setGenerator (S.store w) .running houter)
  have hroot₁ := C.trans hroot hw₁
  have hlt := (Array.getElem?_eq_some_iff.1 hstate).1
  have hplace₁ : (S.store w₁).recordings[recording]? = some ⟨[], 0⟩ := by
    rw [hstore₁]
    exact hplace
  have hrunning : (S.store w₁).generators[outer]? = some .running := by
    rw [hstore₁]
    exact Store.getElem?_setGenerator _ _ hlt
  -- making the generator resumes nothing, so that only the steps beside matter
  obtain ⟨cs, r, t, z, hmade, ⟨g, name, u, rfl, hfresh, hu, rfl, hready⟩, hreceived, hnone, hz⟩ :=
    (P.begins w₁ positional 0 hroot₁ hpositional).run (fun _ => rfl) []
      (fun _ made u => made = [] ∧ Aside C K none w₁ u)
      (fun _ _ _ _ hz h => ⟨h.1, h.2.trans hz⟩) (fun _ _ _ _ _ _ _ hnil => by cases hnil)
      0 [] [] rfl ⟨rfl, Aside.refl C none w₁⟩
  rw [List.nil_append] at hnone
  have hlater := hz.trans hu
  have hsize := (Array.getElem?_eq_some_iff.1 hrunning).1
  have hmemory : (S.store u).memos[K.memo]? = (S.store w).memos[K.memo]? := by
    rw [hlater.2.memory, hstore₁]
    rfl
  rw [hstore₁] at hmade
  refine ⟨cs, g, name, u, hmade, ⟨C.trans hw₁ hlater.1, hmemory⟩, ⟨hnone, hreceived⟩,
    hintact.later hset.resumes (C.trans hw₁ hlater.1) hmemory,
    Nat.ne_of_gt (Nat.lt_of_lt_of_le hsize hfresh), hready, ?_, ?_⟩
  · rw [hlater.2.recordings recording hrecording (Array.getElem?_eq_some_iff.1 hplace₁).1]
    exact hplace₁
  · rw [hlater.2.generators outer houter hsize (by simp)]
    exact hrunning

/-- Started, it takes the turn before any answer. -/
theorem exists_begun (hset : Setting A K root strict)
    (P : Performs A K strict root implementation params turns
      (.rememberedResume K.memo recording K.continuation))
    (hcallee : implementation.isForeign K.memo = true)
    (hrecording : K.firstRecording ≤ recording) (houter : K.firstGenerator ≤ outer) {w : S.World}
    {positional : List Value} (hroot : C.Later root w) (hintact : Intact A K turns strict w)
    (hpositional : positional.map S.see = params)
    (hstate : (S.store w).generators[outer]? = some (.recording recording implementation
      (positional ++ [.arrowOf (.rememberedResume K.memo recording K.continuation)])))
    (hplace : (S.store w).recordings[recording]? = some ⟨[], 0⟩)
    (hstops : (turns []).pause ≠ .diverges) :
    ∃ g cs p u, g ≠ outer ∧
      Traced (Generator.progress outer .nothing) (S.store w) cs p (S.store u) ∧ C.Later w u ∧
      Intact A K turns strict u ∧ Noted K turns strict (S.store w) (S.store u) [[]] [] cs ∧
      Paused strict P outer g u [] p (turns []).pause := by
  obtain ⟨cs, g, name, u, hmade, hu, hquiet, hintact', hne, hready, hplace', hrunning⟩ :=
    exists_started hset P hrecording houter hroot hintact hpositional hstate hplace
  obtain ⟨ds, p, y, htr, hy, hintact'', hnoted, hpaused⟩ :=
    exists_paused hset P (S.store w) .nothing .nothing [_] (C.trans hroot hu.1) hintact' hready hne
      hrecording houter hplace' hrunning (fun y hy => absurd hy List.not_mem_nil) hstops
      (hquiet.within hcallee _)
      (fun ds v t hrun => Generator.traced_advance_recording (Store.generatorAt_eq hstate) hmade hrun)
      (fun ds f t hrun =>
        Generator.traced_advance_recording_error (Store.generatorAt_eq hstate) hmade hrun)
  exact ⟨g, ds, p, y, hne, htr, C.trans hu.1 hy, hintact'', hnoted.since (Store.memory_eq hu.2),
    hpaused⟩

/-- A recording generator that is started and fed answers passes all histories on the way. -/
theorem exists_sent (hset : Setting A K root strict)
    (P : Performs A K strict root implementation params turns
      (.rememberedResume K.memo recording K.continuation))
    (hcallee : implementation.isForeign K.memo = true)
    (hrecording : K.firstRecording ≤ recording) (houter : K.firstGenerator ≤ outer) {w : S.World}
    {positional ys : List Value} (hroot : C.Later root w) (hintact : Intact A K turns strict w)
    (hpositional : positional.map S.see = params)
    (hstate : (S.store w).generators[outer]? = some (.recording recording implementation
      (positional ++ [.arrowOf (.rememberedResume K.memo recording K.continuation)])))
    (hplace : (S.store w).recordings[recording]? = some ⟨[], 0⟩)
    (hknown : ∀ y ∈ ys, S.Known w y) (hawaits : (coroutineOf turns).Awaits (ys.map S.see))
    (hstops : coroutineOf turns (ys.map S.see) ≠ .diverges) :
    ∃ fed u cs, Traced (Replay.sent outer ys) (S.store w) cs fed (S.store u) ∧ C.Later w u ∧
      Intact A K turns strict u ∧
      Noted K turns strict (S.store w) (S.store u) ([] :: passed [] ys) [] cs ∧
      Stops A.Is u ys.length fed (coroutineOf turns (ys.map S.see)) := by
  have hfirst : ys ≠ [] → ∃ t, (turns []).pause = .yields t := fun hys =>
    @Coroutine.Awaits.yields _ _ (coroutineOf turns) [] _ hawaits (by simpa using hys)
  have hstops' : (turns []).pause ≠ .diverges := by
    by_cases hys : ys = []
    · subst hys
      exact hstops
    · obtain ⟨t, ht⟩ := hfirst hys
      rw [ht]
      intro hd
      cases hd
  obtain ⟨g, cs, p, u, hne, htr, hu, hintact', hnoted, hpaused⟩ :=
    exists_begun hset P hcallee hrecording houter hroot hintact hpositional hstate hplace hstops'
  have hlast : (∀ t, (turns []).pause ≠ .yields t) → ys = [] := fun hno =>
    Classical.byContradiction fun hys => by
      obtain ⟨t, ht⟩ := hfirst hys
      exact hno t ht
  generalize hpause : (turns []).pause = pause at hpaused hlast
  cases hpaused with
  | @yielded v q hq hnext =>
    obtain ⟨fed, y, ds, hfed, hy, hintact'', hnoted', hstop⟩ :=
      exists_fed hset hne hrecording houter ys [] u 0 v q (C.trans hroot hu) hnext hq hpause
        (fun a ha => C.known hu (hknown a ha)) hawaits hstops
    rw [Nat.zero_add] at hstop
    refine ⟨fed, y, cs ++ ds, Replay.traced_sent htr hfed, C.trans hu hy, hintact'', ?_, hstop⟩
    refine hnoted.trans hnoted' fun a ha b hb hab => ?_
    have hlength := (length_of_mem_passed hb).1
    rw [← hab, List.mem_singleton.1 ha] at hlength
    exact Nat.lt_irrefl _ hlength
  | @returned v t ht =>
    have hys : ys = [] := hlast fun _ ht => by cases ht
    subst hys
    refine ⟨.ok (.returned v 0), u, cs, Replay.traced_sent_returned htr, hu, hintact', hnoted, ?_⟩
    show Stops _ _ _ _ (turns []).pause
    rw [hpause]
    exact .returned ht
  | @failed f t ht =>
    have hys : ys = [] := hlast fun _ ht => by cases ht
    subst hys
    refine ⟨.error f, u, cs, Replay.traced_sent_failed htr, hu, hintact', hnoted, ?_⟩
    show Stops _ _ _ _ (turns []).pause
    rw [hpause]
    exact .failed ht

/-- If the turn after these answers never ends, feeding them never does. -/
theorem not_sent (hset : Setting A K root strict)
    (P : Performs A K strict root implementation params turns
      (.rememberedResume K.memo recording K.continuation))
    (hcallee : implementation.isForeign K.memo = true)
    (hrecording : K.firstRecording ≤ recording) (houter : K.firstGenerator ≤ outer) {w : S.World}
    {positional ys : List Value} (hroot : C.Later root w) (hintact : Intact A K turns strict w)
    (hpositional : positional.map S.see = params)
    (hstate : (S.store w).generators[outer]? = some (.recording recording implementation
      (positional ++ [.arrowOf (.rememberedResume K.memo recording K.continuation)])))
    (hplace : (S.store w).recordings[recording]? = some ⟨[], 0⟩)
    (hknown : ∀ y ∈ ys, S.Known w y) (hawaits : (coroutineOf turns).Awaits (ys.map S.see))
    (hdiverges : coroutineOf turns (ys.map S.see) = .diverges)
    (cs : List Call) (r : Except Failure Replay.Fed) (t : Store) :
    ¬ Traced (Replay.sent outer ys) (S.store w) cs r t := by
  intro hrun
  obtain ⟨ds, q, v, hfirst⟩ := Traced.exists_of_bind hrun
  by_cases hstops : (turns []).pause = .diverges
  · obtain ⟨es, g, name, u, hmade, hu, -, -, -, hready, -, -⟩ :=
      exists_started hset P hrecording houter hroot hintact hpositional hstate hplace
    obtain ⟨fs, q, v, hadvance⟩ := Generator.exists_of_progress hfirst
    obtain ⟨fs, q, v, hbody⟩ := Generator.exists_of_advance_recording hadvance
      (Store.generatorAt_eq hstate) hmade
    exact P.diverges u g [] .nothing (C.trans hroot hu.1) hready hstops fs q v hbody
  · obtain ⟨g, es, p, u, hne, htr, hu, -, -, hpaused⟩ :=
      exists_begun hset P hcallee hrecording houter hroot hintact hpositional hstate hplace hstops
    have hys : ys ≠ [] := by
      rintro rfl
      exact hstops hdiverges
    obtain ⟨t₀, ht₀⟩ : ∃ t, (turns []).pause = .yields t :=
      @Coroutine.Awaits.yields _ _ (coroutineOf turns) [] _ hawaits (by simpa using hys)
    rw [ht₀] at hpaused
    cases hpaused with
    | @yielded v _ _ hnext =>
      obtain ⟨fs, -, hrest⟩ := Traced.of_bind hrun htr
      exact not_fed hset hne hrecording houter ys [] u 0 v t₀ (C.trans hroot hu) hnext ht₀
        (fun a ha => C.known hu (hknown a ha)) hawaits hdiverges fs r t hrest

end Feeding

end AlgebraicEffects
