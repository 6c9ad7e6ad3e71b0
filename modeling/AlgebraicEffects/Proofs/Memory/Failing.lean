import AlgebraicEffects.Proofs.Memory.Resume

/-!
Resumptions that fail.

Replays visit the same place of a body again, and each visit resumes there through the memory. Only
a resumption that returns is remembered. So a place is visited with a call of the continuation each
time until the first one returns, and from then on its subtree is given back without a call
(`Visits.called_until_returned`). In particular a resumption that fails is made again by every replay.
-/

set_option autoImplicit false

namespace AlgebraicEffects

open Action (Traced)

variable {memo recording : Nat} {continuation x v : Value} {place : Recording} {s t u : Store}
  {cs : List Call} {o : Ending}

/-- The entry was made at this place with this argument. -/
def Remembered.MadeAt (place : Recording) (x : Value) (m : Remembered) : Prop :=
  m.received = place.received ∧ m.call = place.calls ∧ m.answer = x

/-- What goes on meanwhile adds no entries for this place to the memory, and takes none away. -/
structure SparesPlace (memo : Nat) (place : Recording) (x : Value) (s t : Store) : Prop where
  allocated : memo < s.memos.size → memo < t.memos.size
  entries (m : Remembered) : m.MadeAt place x → (m ∈ t.memory memo ↔ m ∈ s.memory memo)

/-- At this place the lookup finds the entries that were made there, and no others. -/
def TellsApart (memo : Nat) (place : Recording) (x : Value) (s : Store) : Prop :=
  ∀ m ∈ s.memory memo, m.fits s place x = true ↔ m.MadeAt place x

/-- Replays visit a place one after the other, each with a recording of its own: how the resumptions
there end, and the calls that they make. -/
inductive Visits (memo : Nat) (continuation x : Value) (place : Recording) :
    Store → List Ending → List Call → Store → Prop where
  | nil (s : Store) : Visits memo continuation x place s [] [] s
  | visit {s t u z : Store} {recording : Nat} {arguments : Arguments Value} {cs made : List Call}
      {o : Ending} {os : List Ending} :
      SparesPlace memo place x s t → t.recordings[recording]? = some place →
      arguments.answer? = some x → TellsApart memo place x (t.countCall recording) →
      Traced ((Function.rememberedResume memo recording continuation).apply arguments) t cs o u →
      Visits memo continuation x place u os made z →
      Visits memo continuation x place s (o :: os) (cs ++ made) z

section Lookup

theorem SparesPlace.trans (h : SparesPlace memo place x s t) (g : SparesPlace memo place x t u) :
    SparesPlace memo place x s u where
  allocated hs := g.allocated (h.allocated hs)
  entries m hm := (g.entries m hm).trans (h.entries m hm)

theorem remembered_isSome_iff (h : TellsApart memo place x s) :
    (Replay.remembered? s place x (s.memory memo)).isSome ↔
      ∃ m ∈ s.memory memo, m.MadeAt place x := by
  rw [Replay.remembered?, Option.isSome_map, List.find?_isSome]
  exact exists_congr fun m => and_congr_right fun hm => h m hm

theorem madeAt_of_remembered (h : TellsApart memo place x s)
    (hv : Replay.remembered? s place x (s.memory memo) = some v) :
    ∃ m ∈ s.memory memo, m.MadeAt place x ∧ m.subtree = v := by
  obtain ⟨m, hm, hsubtree⟩ := Option.map_eq_some_iff.1 hv
  have hmem := List.mem_of_find?_eq_some hm
  exact ⟨m, hmem, (h m hmem).1 (List.find?_some hm), hsubtree⟩

end Lookup

section Visit

variable {arguments : Arguments Value}

/-- Where the memory has the subtree of a place, a visit is given it and calls nothing. -/
theorem visit_found (harg : arguments.answer? = some x)
    (hplace : s.recordings[recording]? = some place)
    (hapart : TellsApart memo place x (s.countCall recording))
    (hhas : ∃ m ∈ s.memory memo, m.MadeAt place x)
    (hall : ∀ m ∈ s.memory memo, m.MadeAt place x → m.subtree = v)
    (h : Traced ((Function.rememberedResume memo recording continuation).apply arguments) s cs o t) :
    o = .ok v ∧ cs = [] ∧ t = s.countCall recording := by
  obtain ⟨subtree, hsubtree⟩ := Option.isSome_iff_exists.1 ((remembered_isSome_iff hapart).2 hhas)
  obtain ⟨m, hm, hmade, rfl⟩ := madeAt_of_remembered hapart hsubtree
  obtain ⟨hcs, ho, ht⟩ := h.unique (traced_resume_hit harg hplace hsubtree)
  exact ⟨by rw [ho, hall m hm hmade], hcs, ht⟩

/-- Where it has none, a visit calls the continuation. If that fails the memory is as the call has left
it, and if it returns there is one more entry. -/
theorem visit_missed (harg : arguments.answer? = some x)
    (hplace : s.recordings[recording]? = some place)
    (hapart : TellsApart memo place x (s.countCall recording))
    (hnone : ¬∃ m ∈ s.memory memo, m.MadeAt place x)
    (h : Traced ((Function.rememberedResume memo recording continuation).apply arguments) s cs o t) :
    ∃ inner r y, Traced (continuation.apply (.of [x])) (s.countCall recording) inner r y ∧
      cs = [.mk continuation (.of [x]) inner] ∧
      match r with
      | .error f => o = .error f ∧ t = y
      | .ok a => o = .ok (y.identify a).1 ∧
          t = (y.identify a).2.remember memo ⟨place.received, place.calls, x, (y.identify a).1⟩ := by
  have hmiss : Replay.remembered? (s.countCall recording) place x
      ((s.countCall recording).memory memo) = none := by
    rw [← Option.not_isSome_iff_eq_none, remembered_isSome_iff hapart]
    exact hnone
  have hlooked := h
  rw [apply_rememberedResume harg] at hlooked
  obtain ⟨ds, q, y, hnext⟩ := hlooked.exists_of_bind
  obtain ⟨rfl, rfl, rfl⟩ := hnext.unique (traced_nextCall hplace)
  obtain ⟨es, -, hread⟩ := hlooked.of_bind hnext
  cases hread with
  | read hread =>
    simp only [hmiss] at hread
    obtain ⟨es, r, y, hask⟩ := hread.exists_of_bind
    obtain ⟨inner, -, hcall⟩ := hask.of_invoke
    refine ⟨inner, r, y, hcall, ?_⟩
    cases r with
    | error f =>
      obtain ⟨hcs, ho, ht⟩ := h.unique (traced_resume_failed harg hplace hmiss hcall)
      exact ⟨hcs, ho, ht⟩
    | ok a =>
      obtain ⟨hcs, ho, ht⟩ := h.unique (traced_resume_made harg hplace hmiss hcall)
      exact ⟨hcs, ho, ht⟩

theorem sparesPlace_countCall (recording : Nat) : SparesPlace memo place x s (s.countCall recording) where
  allocated hs := hs
  entries _ _ := Iff.rfl

theorem sparesPlace_identify (a : Value) : SparesPlace memo place x s (s.identify a).2 := by
  obtain ⟨n, -, hn⟩ := Store.identify_snd s a
  rw [hn]
  exact ⟨fun hs => hs, fun _ _ => Iff.rfl⟩

end Visit

section Run

variable {os : List Ending} {made : List Call}

/-- Once the memory has the subtree of a place, all visits are given it and none calls anything. -/
theorem Visits.found (h : Visits memo continuation x place s os made t)
    (hhas : ∃ m ∈ s.memory memo, m.MadeAt place x)
    (hall : ∀ m ∈ s.memory memo, m.MadeAt place x → m.subtree = v) :
    made = [] ∧ ∃ n, os = List.replicate n (.ok v) := by
  induction h with
  | nil s => exact ⟨rfl, 0, rfl⟩
  | @visit s t u z recording arguments cs made o os hspares hplace harg hapart hvisit _ ih =>
    have hhas' : ∃ m ∈ t.memory memo, m.MadeAt place x := by
      obtain ⟨m, hm, hmade⟩ := hhas
      exact ⟨m, (hspares.entries m hmade).2 hm, hmade⟩
    have hall' : ∀ m ∈ t.memory memo, m.MadeAt place x → m.subtree = v := fun m hm hmade =>
      hall m ((hspares.entries m hmade).1 hm) hmade
    obtain ⟨rfl, rfl, rfl⟩ := visit_found harg hplace hapart hhas' hall' hvisit
    obtain ⟨rfl, n, rfl⟩ := ih hhas' hall'
    exact ⟨rfl, n + 1, rfl⟩

/-- However many replays visit a place, each visit calls the continuation as long as none has returned.
The first one that returns is the last one that calls it, and all later ones are given its subtree. -/
theorem Visits.called_until_returned (h : Visits memo continuation x place s os made t)
    (hallocated : memo < s.memos.size) (hnone : ¬∃ m ∈ s.memory memo, m.MadeAt place x)
    (hspared : ∀ s inner r u, Traced (continuation.apply (.of [x])) s inner r u →
      SparesPlace memo place x s u) :
    ∃ (failures : List Failure) (n : Nat) (v : Value) (inners : List (List Call)),
      os = failures.map .error ++ List.replicate n (.ok v) ∧
        made = inners.map (.mk continuation (.of [x])) ∧ inners.length = failures.length + min n 1 := by
  induction h with
  | nil s => exact ⟨[], 0, .nothing, [], rfl, rfl, rfl⟩
  | @visit s t u z recording arguments cs made o os hspares hplace harg hapart hvisit hlater ih =>
    have hnone' : ¬∃ m ∈ t.memory memo, m.MadeAt place x := by
      rintro ⟨m, hm, hmade⟩
      exact hnone ⟨m, (hspares.entries m hmade).1 hm, hmade⟩
    obtain ⟨inner, r, y, hcall, rfl, hends⟩ := visit_missed harg hplace hapart hnone' hvisit
    have hmeanwhile := (sparesPlace_countCall recording).trans (hspared _ _ _ _ hcall)
    cases r with
    | error f =>
      obtain ⟨rfl, rfl⟩ := hends
      have hnone'' : ¬∃ m ∈ u.memory memo, m.MadeAt place x := by
        rintro ⟨m, hm, hmade⟩
        exact hnone' ⟨m, (hmeanwhile.entries m hmade).1 hm, hmade⟩
      obtain ⟨failures, n, v, inners, rfl, rfl, hlength⟩ :=
        ih (hmeanwhile.allocated (hspares.allocated hallocated)) hnone''
      refine ⟨f :: failures, n, v, inner :: inners, rfl, rfl, ?_⟩
      simp only [List.length_cons]
      omega
    | ok a =>
      obtain ⟨rfl, rfl⟩ := hends
      have hidentified := hmeanwhile.trans (sparesPlace_identify a)
      have hmemory := Store.memory_remember (y.identify a).2
        ⟨place.received, place.calls, x, (y.identify a).1⟩
        (hidentified.allocated (hspares.allocated hallocated))
      -- the entry that has just been made is the only one of this place
      have hhas : ∃ m ∈ ((y.identify a).2.remember memo
          ⟨place.received, place.calls, x, (y.identify a).1⟩).memory memo, m.MadeAt place x := by
        rw [hmemory]
        exact ⟨_, List.mem_append_right _ (List.mem_singleton_self _), rfl, rfl, rfl⟩
      have hall : ∀ m ∈ ((y.identify a).2.remember memo
          ⟨place.received, place.calls, x, (y.identify a).1⟩).memory memo, m.MadeAt place x →
          m.subtree = (y.identify a).1 := by
        rw [hmemory]
        intro m hm hmade
        rcases List.mem_append.1 hm with hold | hnew
        · exact absurd ⟨m, (hidentified.entries m hmade).1 hold, hmade⟩ hnone'
        · rw [List.mem_singleton.1 hnew]
      obtain ⟨rfl, n, rfl⟩ := hlater.found hhas hall
      refine ⟨[], n + 1, (y.identify a).1, [inner], rfl, rfl, ?_⟩
      simp

/-- A continuation that raises a failure instead of going on. -/
def refusing : Value := .function 1000 (.closure "refuse" ⟨["answer"], none⟩
  (.raise (.literal (.text "ValueError")) (.literal (.text "late"))) [])

/-- It gives its answer an identity before it fails. -/
theorem traced_refusing (s : Store) (x : Value) :
    Traced (refusing.apply (.of [x])) s [] (.error (.raised .badValue (.text "late")))
      (s.identifyAll (.of [x])).2 := by
  have hbound := traced_identifyAll s (.of [x])
  obtain ⟨m, hm⟩ : ∃ m, (s.identifyAll (.of [x])).1 = .of [m] := by
    unfold Store.identifyAll
    split
    · exact ⟨x, rfl⟩
    · exact ⟨_, rfl⟩
  rw [hm] at hbound
  have hscope : Traced (Params.scope ⟨["answer"], none⟩ [] (.of [x])) s []
      (.ok (Scope.set "answer" m [])) _ :=
    hbound.bind (.done _ _)
  exact hscope.bind (.fail _ _)

theorem sparesPlace_refusing {inner : List Call} {r : Ending} (a : Value)
    (h : Traced (refusing.apply (.of [a])) s inner r u) : SparesPlace memo place x s u := by
  obtain ⟨-, -, rfl⟩ := h.unique (traced_refusing s a)
  obtain ⟨n, -, hn⟩ := Store.identifyAll_snd s (.of [a])
  rw [hn]
  exact ⟨fun hs => hs, fun _ _ => Iff.rfl⟩

/-- A memory without entries, and two recordings in front of their first resumption. -/
def replaying : Store := { Store.empty with memos := #[[]], recordings := #[⟨[], 0⟩, ⟨[], 0⟩] }

/-- Both replays resume there, and both resumptions fail. -/
theorem visits_refusing : ∃ made t, Visits 0 refusing (.int 1) ⟨[], 0⟩ replaying
    [.error (.raised .badValue (.text "late")), .error (.raised .badValue (.text "late"))] made t := by
  have hstays (s : Store) : SparesPlace 0 ⟨[], 0⟩ (.int 1) s s := ⟨id, fun _ _ => Iff.rfl⟩
  have hfails {s : Store} (recording : Nat) (hplace : s.recordings[recording]? = some ⟨[], 0⟩)
      (hmemory : s.memory 0 = []) :
      Traced ((Function.rememberedResume 0 recording refusing).apply (.of [.int 1])) s
        [.mk refusing (.of [.int 1]) []] (.error (.raised .badValue (.text "late"))) _ :=
    traced_resume_failed rfl hplace (congrArg (Replay.remembered? _ _ _) hmemory)
      (traced_refusing (s.countCall recording) (.int 1))
  exact ⟨_, _, .visit (hstays _) rfl rfl (fun m hm => nomatch hm) (hfails 0 rfl rfl)
    (.visit (hstays _) rfl rfl (fun m hm => nomatch hm) (hfails 1 rfl rfl) (.nil _))⟩

/-- Each of them has called the continuation. -/
theorem called_until_returned_refusing : ∃ made t, Visits 0 refusing (.int 1) ⟨[], 0⟩ replaying
    [.error (.raised .badValue (.text "late")), .error (.raised .badValue (.text "late"))] made t ∧
    made.length = 2 := by
  obtain ⟨made, t, hvisits⟩ := visits_refusing
  refine ⟨made, t, hvisits, ?_⟩
  obtain ⟨failures, n, v, inners, hos, rfl, hlength⟩ :=
    hvisits.called_until_returned (by decide) (fun ⟨m, hm, _⟩ => nomatch hm)
      fun _ _ _ _ h => sparesPlace_refusing _ h
  cases n with
  | zero =>
    have hfailures := congrArg List.length hos
    simp at hfailures hlength
    rw [List.length_map]
    omega
  | succ n =>
    have hreturned : Except.ok v ∈ failures.map Except.error ++ List.replicate (n + 1) (Except.ok v) :=
      List.mem_append_right _ (List.mem_cons_self ..)
    rw [← hos] at hreturned
    simp at hreturned

end Run

end AlgebraicEffects
