import AlgebraicEffects.Proofs.Memory.Intact

/-!
Resuming through the memory.

A resumption counts itself, looks its subtree up and calls the continuation only if there is none.
At a turn of the body this answers as the continuation would, whether the lookup hits or misses, and
keeps the state of the turn.
-/

set_option autoImplicit false

namespace AlgebraicEffects

open Action (Traced)

variable {V τ : Type} {S : Scene V}

section Body

variable {memo recording : Nat} {continuation x : Value} {arguments : Arguments Value}
  {place : Recording} {s t : Store} {cs : List Call}

theorem takeOptional_of_answer {α : Type} (h : arguments.answer? = some x)
    (k : Value → Action α) : Action.takeOptional "answer" .nothing arguments k = k x := by
  unfold Arguments.answer? at h
  unfold Action.takeOptional Action.accept
  cases hb : (Signature.optional [] [("answer", Value.nothing)]).bind? arguments with
  | none => simp [hb] at h
  | some b =>
    obtain ⟨values, rest, keywords⟩ := b
    simp only [hb] at h ⊢
    rcases values with - | ⟨a, - | ⟨b, values⟩⟩
    · cases h
    · cases h
      rfl
    · cases h

theorem traced_nextCall (h : s.recordings[recording]? = some place) :
    Traced (Replay.nextCall recording) s [] (.ok place) (s.countCall recording) := by
  have hplace : s.recordings.getD recording ⟨[], 0⟩ = place := by
    rw [Array.getD_eq_getD_getElem?, h]
    rfl
  rw [← hplace]
  exact .read (.write (.done _ _))

/-- What a resumption does with what the lookup of its argument has found. -/
def Replay.lookedUp (memo : Nat) (continuation : Value) (place : Recording) (answer : Value) :
    Option Value → Action Value
  | some subtree => .done subtree
  | none => do
    let subtree ← Action.identify (← Action.ask continuation [answer])
    Action.update fun s => s.remember memo ⟨place.received, place.calls, answer, subtree⟩
    return subtree

/-- A resumption takes its place and looks its argument up there. -/
theorem apply_rememberedResume (harg : arguments.answer? = some x) :
    (Function.rememberedResume memo recording continuation).apply arguments =
      (Replay.nextCall recording).bind fun place => .read fun s =>
        Replay.lookedUp memo continuation place x
          (Replay.remembered? s place x (s.memory memo)) := by
  show Action.takeOptional _ _ _ _ = _
  rw [takeOptional_of_answer harg]
  refine congrArg _ (funext fun place => congrArg Action.read (funext fun s => ?_))
  show Action.bind _ _ = _
  dsimp only [Action.bind, Store.memory]
  cases Replay.remembered? s place x (s.memos.getD memo []) <;> rfl

/-- What a lookup finds is given back. -/
theorem traced_resume_hit {subtree : Value} (harg : arguments.answer? = some x)
    (hplace : s.recordings[recording]? = some place)
    (hhit : Replay.remembered? (s.countCall recording) place x
      ((s.countCall recording).memory memo) = some subtree) :
    Traced ((Function.rememberedResume memo recording continuation).apply arguments) s []
      (.ok subtree) (s.countCall recording) := by
  rw [apply_rememberedResume harg]
  refine (traced_nextCall hplace).bind (.read ?_)
  rw [hhit]
  exact .done _ _

/-- A resumption that fails is not remembered. -/
theorem traced_resume_failed {f : Failure} (harg : arguments.answer? = some x)
    (hplace : s.recordings[recording]? = some place)
    (hmiss : Replay.remembered? (s.countCall recording) place x
      ((s.countCall recording).memory memo) = none)
    (hcall : Traced (continuation.apply (.of [x])) (s.countCall recording) cs (.error f) t) :
    Traced ((Function.rememberedResume memo recording continuation).apply arguments) s
      [.mk continuation (.of [x]) cs] (.error f) t := by
  rw [apply_rememberedResume harg]
  refine (traced_nextCall hplace).bind (.read ?_)
  rw [hmiss]
  exact hcall.invoke.bind_error

/-- A resumption that is made gives its subtree, which is remembered. -/
theorem traced_resume_made {v : Value} (harg : arguments.answer? = some x)
    (hplace : s.recordings[recording]? = some place)
    (hmiss : Replay.remembered? (s.countCall recording) place x
      ((s.countCall recording).memory memo) = none)
    (hcall : Traced (continuation.apply (.of [x])) (s.countCall recording) cs (.ok v) t) :
    Traced ((Function.rememberedResume memo recording continuation).apply arguments) s
      [.mk continuation (.of [x]) cs] (.ok (t.identify v).1)
      ((t.identify v).2.remember memo ⟨place.received, place.calls, x, (t.identify v).1⟩) := by
  rw [apply_rememberedResume harg]
  refine (traced_nextCall hplace).bind (.read ?_)
  rw [hmiss]
  exact hcall.invoke.bind ((traced_identify t v).bind (.write (.done _ _)))

/-- What a lookup finds is in the memory, and was made at this place. -/
theorem exists_of_remembered {memory : List Remembered} {subtree : Value}
    (h : Replay.remembered? s place x memory = some subtree) :
    ∃ m ∈ memory, m.subtree = subtree ∧ m.call = place.calls ∧
      sameItems (m.received.map s.show) (place.received.map s.show) = true := by
  unfold Replay.remembered? at h
  obtain ⟨m, hfind, hsubtree⟩ := Option.map_eq_some_iff.1 h
  have hfits := List.find?_some hfind
  simp only [Remembered.fits, Bool.and_eq_true, beq_iff_eq] at hfits
  exact ⟨m, List.mem_of_find?_eq_some hfind, hsubtree, hfits.1.1, hfits.2⟩

end Body

section Step

variable {C : Course S} {A : Look C τ} {K : Resumption S τ} {turns : List V → Turn V τ} {root w u : S.World}
  {strict : Prop} {recording outer i : Nat} {ys : List Value}
  {made : List (Value × Arguments Value)}

/-- A lookup that hits finds a call of this turn. -/
theorem Making.see_of_hit (hset : Setting A K root strict) (hroot : C.Later root w)
    (h : Making A K turns strict recording outer w ys i made u) (hys : ∀ y ∈ ys, S.Known u y)
    {z : S.World} (hz : C.Later u z) {m : Remembered}
    (hm : m ∈ (S.store u).memory K.memo) (hcall : m.call = i)
    (hsame : sameItems (m.received.map (S.store z).show) (ys.map (S.store z).show) = true)
    {a : V} (ha : (turns (ys.map S.see)).calls[i]? = some a) : S.see m.answer = a := by
  have hgenuine := h.genuine m hm
  have hlater := C.trans (C.trans hroot h.later) hz
  have hreceived : m.received.map S.see = ys.map S.see := by
    refine see_of_sameItems (fun x hx y hy => ?_) hsame
    exact hset.identity z x y hlater (C.known hz (hgenuine.known x hx)) (C.known hz (hys y hy))
  have hentry := hgenuine.call
  rw [hreceived, hcall, ha] at hentry
  exact (Option.some.inj hentry).symm

/-- Where lookups are exact, they hit just at the turns that were reached before. -/
theorem Making.remembered_iff (hset : Setting A K root strict) (hstrict : strict)
    (hroot : C.Later root w) (hcomplete : Complete S turns ((S.store w).memory K.memo))
    (h : Making A K turns strict recording outer w ys i made u) (hys : ∀ y ∈ ys, S.Known u y)
    {z : S.World} (hz : C.Later u z) {x : Value} (hx : K.Asked z x)
    (hcall : (turns (ys.map S.see)).calls[i]? = some (S.see x)) :
    (Replay.remembered? (S.store z) ⟨ys, i⟩ x ((S.store u).memory K.memo)).isSome ↔
      Reached ((S.store w).memory K.memo) ys := by
  have hexact := hset.exact hstrict
  have hlater := C.trans (C.trans hroot h.later) hz
  obtain ⟨ms, hms, hreceived, -, hnew⟩ := h.added
  have hsameItems : ∀ m ∈ (S.store u).memory K.memo,
      (sameItems (m.received.map (S.store z).show) (ys.map (S.store z).show) = true ↔
        m.received = ys) := by
    intro m hm
    refine sameItems_iff fun a ha b hb => ?_
    exact hexact.identity z a b hlater (C.known hz ((h.genuine m hm).known a ha))
      (C.known hz (hys b hb))
  constructor
  · intro hsome
    obtain ⟨subtree, hsubtree⟩ := Option.isSome_iff_exists.1 hsome
    obtain ⟨m, hm, -, hmcall, hsame⟩ := exists_of_remembered hsubtree
    refine Classical.byContradiction fun hreached => ?_
    have hmys : m.received = ys := (hsameItems m hm).1 hsame
    rw [hms] at hm
    rcases List.mem_append.1 hm with hold | hmade
    · exact hreached ⟨m, hold, hmys⟩
    · have hrange : m.call ∈ ms.map (·.call) := List.mem_map_of_mem hmade
      rw [hnew hstrict hreached, hmcall] at hrange
      exact Nat.lt_irrefl i (List.mem_range.1 hrange)
  · rintro ⟨m, hm, hmys⟩
    have hlt : i < (turns (m.received.map S.see)).calls.length := by
      rw [hmys]
      exact (List.getElem?_eq_some_iff.1 hcall).1
    obtain ⟨l, hl, hlreceived, hlcall⟩ := hcomplete m hm i hlt
    have hlu : l ∈ (S.store u).memory K.memo := by
      rw [hms]
      exact List.mem_append_left ms hl
    have hsee : S.see l.answer = S.see x := by
      refine h.see_of_hit hset hroot hys hz hlu hlcall ?_ hcall
      exact (hsameItems l hlu).2 (hlreceived.trans hmys)
    have hagrees := hexact.agreement z l.answer x hlater
      (hset.resumes.asked hz (h.genuine l hlu).asked) hx hsee
    have hfits : l.fits (S.store z) ⟨ys, i⟩ x = true := by
      simp only [Remembered.fits, Bool.and_eq_true, beq_iff_eq]
      exact ⟨⟨hlcall, hagrees⟩, (hsameItems l hlu).2 (hlreceived.trans hmys)⟩
    rw [Replay.remembered?, Option.isSome_map, List.find?_isSome]
    exact ⟨l, hlu, hfits⟩

theorem owed_of_reached {memory : List Remembered} (h : Reached memory ys) :
    owed S turns memory ys = [] := if_pos h

theorem owed_of_not_reached {memory : List Remembered} (h : ¬ Reached memory ys) :
    owed S turns memory ys = (turns (ys.map S.see)).calls := if_neg h

theorem charges_nil : Charges K [] [] := ⟨[], rfl, rfl⟩

theorem charges_singleton (x : Value) : Charges K [(K.continuation, .of [x])] [S.see x] :=
  ⟨[x], rfl, rfl⟩

/-- One resumption more: it adds at most one entry, and the call of that entry. -/
theorem Making.advance (hresumes : Resumes A K root)
    (h : Making A K turns strict recording outer w ys i made u) {y : S.World} (hy : C.Later u y)
    (new : List Remembered) {more : List (Value × Arguments Value)}
    (hallocated : K.memo < (S.store y).memos.size)
    (hplace : (S.store y).recordings[recording]? = some ⟨ys, i + 1⟩)
    (hrunning : (S.store y).generators[outer]? = (S.store u).generators[outer]?)
    (hmemory : (S.store y).memory K.memo = (S.store u).memory K.memo ++ new)
    (hnew : ∀ m ∈ new, Genuine A K turns y m ∧ m.received = ys)
    (hreached : strict → Reached ((S.store w).memory K.memo) ys → new = [] ∧ more = [])
    (hnot : strict → ¬ Reached ((S.store w).memory K.memo) ys → new.map (·.call) = [i] ∧
      ∃ a, (turns (ys.map S.see)).calls[i]? = some a ∧ Charges K more [a]) :
    Making A K turns strict recording outer w ys (i + 1) (made ++ more) y where
  later := C.trans h.later hy
  allocated := hallocated
  place := hplace
  running := hrunning.trans h.running
  genuine m hm := by
    rw [hmemory] at hm
    rcases List.mem_append.1 hm with hm | hm
    · exact (h.genuine m hm).later hresumes hy
    · exact (hnew m hm).1
  added := by
    obtain ⟨ms, hms, hreceived, hold, hmade⟩ := h.added
    refine ⟨ms ++ new, by rw [hmemory, hms, List.append_assoc], ?_, ?_, ?_⟩
    · intro m hm
      rcases List.mem_append.1 hm with hm | hm
      · exact hreceived m hm
      · exact (hnew m hm).2
    · intro hstrict hr
      rw [hold hstrict hr, (hreached hstrict hr).1, List.append_nil]
    · intro hstrict hr
      rw [List.map_append, hmade hstrict hr, (hnot hstrict hr).1, List.range_succ]
  charged := by
    intro hstrict
    have hdone := h.charged hstrict
    by_cases hr : Reached ((S.store w).memory K.memo) ys
    · rw [owed_of_reached hr, List.take_nil] at hdone ⊢
      rw [(hreached hstrict hr).2, List.append_nil]
      exact hdone
    · obtain ⟨a, ha, hcharges⟩ := (hnot hstrict hr).2
      rw [owed_of_not_reached hr] at hdone ⊢
      rw [List.take_add_one, ha]
      exact hdone.append hcharges

/-- A hit answers as the continuation would and makes no call. -/
theorem Making.hit (hset : Setting A K root strict) (hroot : C.Later root w)
    (hcomplete : strict → Complete S turns ((S.store w).memory K.memo))
    (h : Making A K turns strict recording outer w ys i made u) (hys : ∀ y ∈ ys, S.Known u y)
    {z : S.World} (hz : C.Later u z) (hstore : S.store z = (S.store u).countCall recording)
    {x subtree : Value} (hx : K.Asked z x)
    (hcall : (turns (ys.map S.see)).calls[i]? = some (S.see x))
    (hhit : Replay.remembered? (S.store z) ⟨ys, i⟩ x ((S.store u).memory K.memo) = some subtree) :
    Answers A K strict u (S.see x) (.ok subtree) z ∧
      Making A K turns strict recording outer w ys (i + 1) (made ++ []) z := by
  have hreached : strict → Reached ((S.store w).memory K.memo) ys := fun hstrict =>
    (h.remembered_iff hset hstrict hroot (hcomplete hstrict) hys hz hx hcall).1 (by rw [hhit]; rfl)
  have hmemory : (S.store z).memory K.memo = (S.store u).memory K.memo := by rw [hstore]; rfl
  constructor
  · obtain ⟨m, hm, rfl, hmcall, hsame⟩ := exists_of_remembered hhit
    have hsee := h.see_of_hit hset hroot hys hz hm hmcall hsame hcall
    exact {
      later := hz
      generators := fun _ _ _ => by rw [hstore]; rfl
      generators_le := by rw [hstore]; exact Nat.le_refl _
      is := hsee ▸ A.later hz (h.genuine m hm).is
      returns := fun _ => ⟨_, rfl⟩
      settled := fun _ hv => Except.ok.inj hv ▸ (h.genuine m hm).settled }
  · refine h.advance hset.resumes hz [] ?_ ?_ ?_ (by rw [hmemory, List.append_nil])
      (fun m hm => absurd hm List.not_mem_nil) (fun _ _ => ⟨rfl, rfl⟩)
      (fun hstrict hr => absurd (hreached hstrict) hr)
    · rw [hstore]
      exact h.allocated
    · rw [hstore]
      simp [Store.countCall, Array.getElem?_modify, h.place]
    · rw [hstore]
      rfl

/-- What a call of the continuation leaves alone, between the count and the entry. -/
theorem Making.spared (hrecording : K.firstRecording ≤ recording)
    (h : Making A K turns strict recording outer w ys i made u) {s t : Store}
    (hs : s = (S.store u).countCall recording) (hspares : Spares K none s t) :
    t.memos[K.memo]? = (S.store u).memos[K.memo]? ∧
    t.recordings[recording]? = some ⟨ys, i + 1⟩ ∧
    (∀ g, K.firstGenerator ≤ g → g < (S.store u).generators.size →
      t.generators[g]? = (S.store u).generators[g]?) ∧
    (S.store u).generators.size ≤ t.generators.size := by
  subst hs
  have hsize : recording < ((S.store u).countCall recording).recordings.size := by
    simpa [Store.countCall] using (Array.getElem?_eq_some_iff.1 h.place).1
  refine ⟨hspares.memory, ?_, fun g hg hlt => ?_, hspares.generators_le⟩
  · rw [hspares.recordings recording hrecording hsize]
    simp [Store.countCall, Array.getElem?_modify, h.place]
  · exact hspares.generators g hg hlt (by simp)

/-- What the continuation returns gets an identity and is remembered with its place. -/
theorem Setting.exists_remembering (hset : Setting A K root strict) {y : S.World}
    (hy : C.Later root y) (ys : List Value) (i : Nat) (x : Value) {v : Value} {t : τ}
    (his : ∀ z, C.Later y z → S.store z = ((S.store y).identify v).2 →
      A.Is z (.ok ((S.store y).identify v).1) t) :
    ∃ subtree z n, subtree = ((S.store y).identify v).1 ∧ Value.Settled subtree ∧ C.Later y z ∧
      A.Is z (.ok subtree) t ∧ ((S.store y).identify v).2 = (S.store y).tagsFrom n ∧
      S.store z = ((S.store y).tagsFrom n).remember K.memo ⟨ys, i, x, subtree⟩ := by
  obtain ⟨y₁, hy₁, hstore₁, -⟩ := C.identified y v
  obtain ⟨n, -, hn⟩ := Store.identify_snd (S.store y) v
  obtain ⟨z, hz, hstore⟩ := hset.books y₁ _ (C.trans hy hy₁)
    (bookkeeping_remember (S.store y₁) ⟨ys, i, x, ((S.store y).identify v).1⟩)
  refine ⟨_, z, n, rfl, Value.settled_identify (hset.tags y hy) v, C.trans hy₁ hz,
    A.later hz (his y₁ hy₁ hstore₁), hn, ?_⟩
  rw [hstore, hstore₁, hn]

/-- A resumption that has to be made calls the continuation once and is remembered if it returns. -/
theorem Making.miss (hset : Setting A K root strict) (hroot : C.Later root w)
    (hcomplete : strict → Complete S turns ((S.store w).memory K.memo))
    (hrecording : K.firstRecording ≤ recording) (houter : K.firstGenerator ≤ outer)
    (h : Making A K turns strict recording outer w ys i made u) (hys : ∀ y ∈ ys, S.Known u y)
    {z : S.World} (hz : C.Later u z) (hstore : S.store z = (S.store u).countCall recording)
    {arguments : Arguments Value} {x : Value} (harg : arguments.answer? = some x)
    (hx : K.Asked z x) (hcall : (turns (ys.map S.see)).calls[i]? = some (S.see x))
    (hmiss : Replay.remembered? (S.store z) ⟨ys, i⟩ x ((S.store u).memory K.memo) = none) :
    ∃ cs o y,
      Traced ((Function.rememberedResume K.memo recording K.continuation).apply arguments)
        (S.store u) [.mk K.continuation (.of [x]) cs] o (S.store y) ∧
      Quiet K.memo [.mk K.continuation (.of [x]) cs] ∧
      Answers A K strict u (S.see x) o y ∧
      Making A K turns strict recording outer w ys (i + 1)
        (made ++ [(K.continuation, .of [x])]) y := by
  have hlater := C.trans (C.trans hroot h.later) hz
  have hnot : strict → ¬ Reached ((S.store w).memory K.memo) ys := by
    intro hstrict hreached
    have hsome := (h.remembered_iff hset hstrict hroot (hcomplete hstrict) hys hz hx hcall).2 hreached
    rw [hmiss] at hsome
    cases hsome
  have hmemory : (S.store z).memory K.memo = (S.store u).memory K.memo := by rw [hstore]; rfl
  have hmissed : Replay.remembered? ((S.store u).countCall recording) ⟨ys, i⟩ x
      (((S.store u).countCall recording).memory K.memo) = none := by
    rw [← hstore, hmemory]
    exact hmiss
  obtain ⟨cs, o, y, htr, hy, hquiet, hspares, his, hidentified⟩ :=
    hset.resumes.resumes z x hlater hx
  have hquiet' := hquiet.within hset.continuation (.of [x])
  obtain ⟨hmemos, hplace, hgenerators, hgenerators_le⟩ := h.spared hrecording hstore hspares
  have hrunning := hgenerators outer houter (Array.getElem?_eq_some_iff.1 h.running).1
  have hreturns := fun hstrict => (hset.exact hstrict).returns z x hlater hx cs o _ htr
  rw [hstore] at htr
  cases o with
  | error f =>
    have hnever : ¬ strict := by
      intro hstrict
      obtain ⟨v, hv⟩ := hreturns hstrict
      cases hv
    exact ⟨cs, .error f, y, traced_resume_failed harg h.place hmissed htr, hquiet',
      ⟨C.trans hz hy, hgenerators, hgenerators_le, his, fun hstrict => absurd hstrict hnever,
        fun _ hv => nomatch hv⟩,
      h.advance hset.resumes (C.trans hz hy) [] (Store.allocated_of_eq hmemos h.allocated) hplace
        hrunning (by rw [Store.memory_eq hmemos, List.append_nil])
        (fun m hm => absurd hm List.not_mem_nil) (fun hstrict _ => absurd hstrict hnever)
        fun hstrict _ => absurd hstrict hnever⟩
  | ok v =>
    obtain ⟨subtree, z', n, hsubtree, hsettled, hz', his', hn, hfinal⟩ :=
      hset.exists_remembering (C.trans hlater hy) ys i x fun z => hidentified v z rfl
    have hu := C.trans hz (C.trans hy hz')
    have hallocated : K.memo < ((S.store y).tagsFrom n).memos.size :=
      Store.allocated_of_eq hmemos h.allocated
    refine ⟨cs, .ok subtree, z', ?_, hquiet', ⟨hu, ?_, ?_, his', fun _ => ⟨subtree, rfl⟩,
      fun _ hv => Except.ok.inj hv ▸ hsettled⟩, ?_⟩
    · have hmade := traced_resume_made harg h.place hmissed htr
      rw [← hsubtree, hn, ← hfinal] at hmade
      exact hmade
    · rw [hfinal]
      exact hgenerators
    · rw [hfinal]
      exact hgenerators_le
    · refine h.advance hset.resumes hu [⟨ys, i, x, subtree⟩] ?_ ?_ ?_ ?_ ?_ ?_ ?_
      · rw [hfinal]
        simpa [Store.remember] using hallocated
      · rw [hfinal]
        exact hplace
      · rw [hfinal]
        exact hrunning
      · rw [hfinal, Store.memory_remember _ _ hallocated]
        exact congrArg (· ++ [_]) (Store.memory_eq hmemos)
      · intro m hm
        rw [List.mem_singleton.1 hm]
        exact ⟨⟨fun a ha => C.known hu (hys a ha), hset.resumes.asked (C.trans hy hz') hx, hcall, his',
          hsettled⟩, rfl⟩
      · exact fun hstrict hr => absurd hr (hnot hstrict)
      · exact fun _ _ => ⟨rfl, S.see x, hcall, charges_singleton x⟩

/-- Resuming through the memory answers as the continuation would and keeps the state of the turn. -/
theorem Making.resume (hset : Setting A K root strict) (hroot : C.Later root w)
    (hcomplete : strict → Complete S turns ((S.store w).memory K.memo))
    (hrecording : K.firstRecording ≤ recording) (houter : K.firstGenerator ≤ outer)
    (h : Making A K turns strict recording outer w ys i made u) (hys : ∀ y ∈ ys, S.Known u y)
    {arguments : Arguments Value} {x : Value} (tag : Nat) (harg : arguments.answer? = some x)
    (hx : K.Asked u x) (hcall : (turns (ys.map S.see)).calls[i]? = some (S.see x)) :
    ∃ cs o y,
      Traced ((Function.rememberedResume K.memo recording K.continuation).apply arguments)
        (S.store u) cs o (S.store y) ∧
      Answers A K strict u (S.see x) o y ∧ received K.memo cs = [] ∧
      Making A K turns strict recording outer w ys (i + 1)
        (made ++ through K.memo [.mk (.function tag
          (.rememberedResume K.memo recording K.continuation)) arguments cs]) y := by
  obtain ⟨z, hz, hstore⟩ := hset.books u _ (C.trans hroot h.later)
    (bookkeeping_countCall (S.store u) hrecording)
  have hxz := hset.resumes.asked hz hx
  have hresumes : (Value.function tag
      (.rememberedResume K.memo recording K.continuation)).resumesThrough K.memo = true := by
    simp [Value.resumesThrough]
  cases hfound : Replay.remembered? (S.store z) ⟨ys, i⟩ x ((S.store u).memory K.memo) with
  | some subtree =>
    obtain ⟨hanswers, hmaking⟩ :=
      h.hit hset hroot hcomplete hys hz hstore hxz hcall hfound
    refine ⟨[], .ok subtree, z, ?_, hanswers, rfl, ?_⟩
    · rw [hstore]
      refine traced_resume_hit harg h.place ?_
      rw [hstore] at hfound
      exact hfound
    · rw [through_of_resumes hresumes]
      exact hmaking
  | none =>
    obtain ⟨cs, o, y, htr, hquiet, hanswers, hmaking⟩ :=
      h.miss hset hroot hcomplete hrecording houter hys hz hstore harg hxz hcall hfound
    refine ⟨_, o, y, htr, hanswers, hquiet.2, ?_⟩
    rw [through_of_resumes hresumes, hquiet.1, List.append_nil]
    exact hmaking

end Step

end AlgebraicEffects
