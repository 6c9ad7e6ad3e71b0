import AlgebraicEffects.Proofs.Memory.Contract

/-!
The memory of an evaluation.

Every entry of the memory was made at a turn of the body: after the answers that it holds, as the
call that it counts, with the argument of that call and the subtree that the continuation gave for
it (`Intact`). A lookup by the same answers and the same count therefore finds the subtree of a call
with an argument that looks the same, whichever branch has made it. Where identity and equality are
exact, a lookup also finds every call that was made, and no other.
-/

set_option autoImplicit false

namespace AlgebraicEffects

open Action (Traced)

variable {V τ : Type} {S : Scene V}

/-- A resumption that was made after these answers. -/
def Reached (memory : List Remembered) (ys : List Value) : Prop := ∃ m ∈ memory, m.received = ys

section Does

variable {C : Course S} {A : Look C τ} {K : Resumption S τ} {strict : Prop} {resume : Function}
  {own : Option Nat}

/-- An action that does what it should runs, if every call of its resume function does; what holds at
each resumption of the calls made so far holds at the end. -/
theorem Does.run (hresume : ∀ tag, (Value.function tag resume).answersThrough K.memo = false)
    (full : List V) (J : Nat → List (Value × Arguments Value) → S.World → Prop)
    (haside : ∀ i acc u z, Aside C K own u z → J i acc u → J i acc z)
    (hstep : ∀ i acc u x tag arguments, J i acc u → full[i]? = some (S.see x) → K.Asked u x →
      arguments.answer? = some x →
      ∃ cs o z, Traced (resume.apply arguments) (S.store u) cs o (S.store z) ∧
        Answers A K strict u (S.see x) o z ∧ received K.memo cs = [] ∧
        J (i + 1) (acc ++ through K.memo [.mk (.function tag resume) arguments cs]) z)
    {α : Type} {as : List V} {u : S.World} {c : Action α} {s : Store}
    {post : Except Failure α → Store → S.World → Prop} (h : Does A K strict resume own as u c s post) :
    ∀ i acc rest, full.drop i = as ++ rest → J i acc u →
      ∃ cs r t z, Traced c s cs r t ∧ post r t z ∧ received K.memo cs = [] ∧
        J (i + as.length) (acc ++ through K.memo cs) z := by
  induction h with
  | @done _ x s u post hp =>
    intro i acc rest _ hJ
    exact ⟨[], .ok x, s, u, .done x s, hp, rfl, by simpa [through, collect] using hJ⟩
  | @fail _ f s u post hp =>
    intro i acc rest _ hJ
    exact ⟨[], .error f, s, u, .fail f s, hp, rfl, by simpa [through, collect] using hJ⟩
  | read _ ih =>
    intro i acc rest hdrop hJ
    obtain ⟨cs, r, t, z, htr, hp, hz⟩ := ih i acc rest hdrop hJ
    exact ⟨cs, r, t, z, .read htr, hp, hz⟩
  | write _ ih =>
    intro i acc rest hdrop hJ
    obtain ⟨cs, r, t, z, htr, hp, hz⟩ := ih i acc rest hdrop hJ
    exact ⟨cs, r, t, z, .write htr, hp, hz⟩
  | @call _ f arguments k as bs s u mid post hf _ _ ihf ihk =>
    intro i acc rest hdrop hJ
    rw [List.append_assoc] at hdrop
    obtain ⟨cs, o, t, z, htr, hmid, hquiet, hz⟩ := ihf i acc (bs ++ rest) hdrop hJ
    have hdrop' : full.drop (i + as.length) = bs ++ rest := by
      rw [← List.drop_drop, hdrop, List.drop_left]
    obtain ⟨ds, r, t', y, htr', hp, hquiet', hy⟩ := ihk o t z hmid _ _ rest hdrop' hz
    obtain ⟨hthrough, hreceived⟩ := of_isForeign hf arguments cs
    refine ⟨.mk f arguments cs :: ds, r, t', y, .call htr htr', hp, ?_, ?_⟩
    · rw [received_cons, hreceived, hquiet, hquiet', List.append_nil]
    · rw [through_cons, hthrough, List.length_append, ← Nat.add_assoc, ← List.append_assoc]
      exact hy
  | @resume _ tag arguments x k as u z post hx hz hasked _ ih =>
    intro i acc rest hdrop hJ
    have hfull : full[i]? = some (S.see x) := by
      rw [← List.head?_drop, hdrop]
      rfl
    obtain ⟨cs, o, y, htr, hans, hquiet, hy⟩ :=
      hstep i acc z x tag arguments (haside i acc u z hz hJ) hfull hasked hx
    have hdrop' : full.drop (i + 1) = as ++ rest := by
      rw [← List.drop_drop, hdrop]
      rfl
    obtain ⟨ds, r, t, y', htr', hp, hquiet', hy'⟩ := ih o y hans _ _ rest hdrop' hy
    refine ⟨.mk (.function tag resume) arguments cs :: ds, r, t, y', .call htr htr', hp, ?_, ?_⟩
    · rw [received_cons, received_of_not_answers (hresume tag), hquiet, hquiet', List.append_nil]
    · rw [through_cons, List.length_cons, ← List.append_assoc, Nat.add_comm as.length 1,
        ← Nat.add_assoc]
      exact hy'

end Does

section Books

/-- The store in which a recording has counted one more call. -/
def Store.countCall (s : Store) (recording : Nat) : Store :=
  { s with recordings := s.recordings.modify recording fun r => { r with calls := r.calls + 1 } }

/-- The store in which a memory has one more entry. -/
def Store.remember (s : Store) (memo : Nat) (m : Remembered) : Store :=
  { s with memos := s.memos.modify memo (· ++ [m]) }

variable {K : Resumption S τ}

theorem Bookkeeping.refl (s : Store) : Bookkeeping K s s where
  rest := rfl
  memos _ _ := rfl
  recordings _ _ := rfl
  generators _ _ := rfl
  recordings_le := Nat.le_refl _
  generators_le := Nat.le_refl _

theorem Spares.refl (own : Option Nat) (s : Store) : Spares K own s s where
  memory := rfl
  recordings _ _ _ := rfl
  generators _ _ _ _ := rfl
  recordings_le := Nat.le_refl _
  generators_le := Nat.le_refl _

theorem Spares.trans {own : Option Nat} {s t u : Store} (h : Spares K own s t)
    (g : Spares K own t u) : Spares K own s u where
  memory := g.memory.trans h.memory
  recordings i hi hlt :=
    (g.recordings i hi (Nat.lt_of_lt_of_le hlt h.recordings_le)).trans (h.recordings i hi hlt)
  generators i hi hlt hown :=
    (g.generators i hi (Nat.lt_of_lt_of_le hlt h.generators_le) hown).trans
      (h.generators i hi hlt hown)
  recordings_le := Nat.le_trans h.recordings_le g.recordings_le
  generators_le := Nat.le_trans h.generators_le g.generators_le

theorem Aside.refl (C : Course S) (own : Option Nat) (w : S.World) : Aside C K own w w :=
  ⟨C.refl w, Spares.refl own _⟩

theorem Aside.trans {C : Course S} {own : Option Nat} {w u z : S.World} (h : Aside C K own w u)
    (g : Aside C K own u z) : Aside C K own w z :=
  ⟨C.trans h.1 g.1, h.2.trans g.2⟩

theorem bookkeeping_countCall (s : Store) {recording : Nat} (h : K.firstRecording ≤ recording) :
    Bookkeeping K s (s.countCall recording) where
  rest := rfl
  memos _ _ := rfl
  recordings i hi := by
    have hne : recording ≠ i := by omega
    simp [Store.countCall, Array.getElem?_modify, hne]
  generators _ _ := rfl
  recordings_le := by simp [Store.countCall]
  generators_le := Nat.le_refl _

theorem bookkeeping_remember (s : Store) (m : Remembered) :
    Bookkeeping K s (s.remember K.memo m) where
  rest := rfl
  memos i hi := by simp [Store.remember, Array.getElem?_modify, Ne.symm hi]
  recordings _ _ := rfl
  generators _ _ := rfl
  recordings_le := Nat.le_refl _
  generators_le := Nat.le_refl _

theorem Store.memory_remember (s : Store) {memo : Nat} (m : Remembered)
    (h : memo < s.memos.size) : (s.remember memo m).memory memo = s.memory memo ++ [m] := by
  simp [Store.memory, Store.remember, Array.getD_eq_getD_getElem?, Array.getElem_modify, h]

theorem Store.memory_eq {s t : Store} {memo : Nat} (h : t.memos[memo]? = s.memos[memo]?) :
    t.memory memo = s.memory memo := by
  simp only [Store.memory, Array.getD_eq_getD_getElem?, h]

theorem Store.allocated_of_eq {s t : Store} {memo : Nat} (h : t.memos[memo]? = s.memos[memo]?)
    (hs : memo < s.memos.size) : memo < t.memos.size := by
  rw [Array.getElem?_eq_getElem hs] at h
  exact (Array.getElem?_eq_some_iff.1 h).1

end Books

section Lookup

/-- What shows as the same objects looks the same. -/
theorem see_of_sameItems {s : Store} {xs ys : List Value}
    (h : ∀ x ∈ xs, ∀ y ∈ ys, (s.show x).isSame (s.show y) = true → S.see x = S.see y)
    (hsame : sameItems (xs.map s.show) (ys.map s.show) = true) : xs.map S.see = ys.map S.see := by
  induction xs generalizing ys with
  | nil =>
    cases ys with
    | nil => rfl
    | cons y ys => simp [sameItems] at hsame
  | cons x xs ih =>
    cases ys with
    | nil => simp [sameItems] at hsame
    | cons y ys =>
      simp only [List.map_cons, sameItems, Bool.and_eq_true] at hsame
      have hx := h x List.mem_cons_self y List.mem_cons_self hsame.1
      have hxs := ih (fun a ha b hb => h a (List.mem_cons_of_mem _ ha) b (List.mem_cons_of_mem _ hb))
        hsame.2
      rw [List.map_cons, List.map_cons, hx, hxs]

theorem sameItems_iff {s : Store} {xs ys : List Value}
    (h : ∀ x ∈ xs, ∀ y ∈ ys, (s.show x).isSame (s.show y) = true ↔ x = y) :
    sameItems (xs.map s.show) (ys.map s.show) = true ↔ xs = ys := by
  induction xs generalizing ys with
  | nil => cases ys <;> simp [sameItems]
  | cons x xs ih =>
    cases ys with
    | nil => simp [sameItems]
    | cons y ys =>
      have hx := h x List.mem_cons_self y List.mem_cons_self
      have hxs := @ih ys fun a ha b hb =>
        h a (List.mem_cons_of_mem _ ha) b (List.mem_cons_of_mem _ hb)
      simp only [List.map_cons, sameItems, Bool.and_eq_true, hx, hxs, List.cons.injEq]

end Lookup

section Making

/-- A memory that has any call of a turn has all calls of it. -/
def Complete (S : Scene V) (turns : List V → Turn V τ) (memory : List Remembered) : Prop :=
  ∀ m ∈ memory, ∀ i, i < (turns (m.received.map S.see)).calls.length →
    ∃ l ∈ memory, l.received = m.received ∧ l.call = i

open Classical in
/-- What the continuation is still to be called with at the turn after these answers. -/
noncomputable def owed (S : Scene V) (turns : List V → Turn V τ) (memory : List Remembered)
    (ys : List Value) : List V :=
  if Reached memory ys then [] else (turns (ys.map S.see)).calls

variable {C : Course S} (A : Look C τ) (K : Resumption S τ) (turns : List V → Turn V τ)

/-- The entry was made at a turn of the body, and its subtree is that of the continuation. -/
structure Genuine (w : S.World) (m : Remembered) : Prop where
  known : ∀ y ∈ m.received, S.Known w y
  asked : K.Asked w m.answer
  call : (turns (m.received.map S.see)).calls[m.call]? = some (S.see m.answer)
  is : A.Is w (.ok m.subtree) (K.outcome (S.see m.answer))
  settled : m.subtree.Settled

/-- These are calls of the continuation with arguments that look like this. -/
def Charges (made : List (Value × Arguments Value)) (as : List V) : Prop :=
  ∃ xs : List Value, made = xs.map (fun x => (K.continuation, .of [x])) ∧ xs.map S.see = as

/-- The state of a turn, after the answers `ys`, that began in the world `w` and has resumed `i`
times, with the calls that the resumptions have made. -/
structure Making (strict : Prop) (recording outer : Nat) (w : S.World) (ys : List Value) (i : Nat)
    (made : List (Value × Arguments Value)) (u : S.World) : Prop where
  later : C.Later w u
  allocated : K.memo < (S.store u).memos.size
  place : (S.store u).recordings[recording]? = some ⟨ys, i⟩
  running : (S.store u).generators[outer]? = some .running
  genuine : ∀ m ∈ (S.store u).memory K.memo, Genuine A K turns u m
  added : ∃ ms, (S.store u).memory K.memo = (S.store w).memory K.memo ++ ms ∧
    (∀ m ∈ ms, m.received = ys) ∧
    (strict → Reached ((S.store w).memory K.memo) ys → ms = []) ∧
    (strict → ¬ Reached ((S.store w).memory K.memo) ys → ms.map (·.call) = List.range i)
  charged : strict → Charges K made ((owed S turns ((S.store w).memory K.memo) ys).take i)

variable {A K turns}

theorem Genuine.later {w u : S.World} {m : Remembered} {root : S.World}
    (hresumes : Resumes A K root) (h : Genuine A K turns w m) (hu : C.Later w u) :
    Genuine A K turns u m where
  known y hy := C.known hu (h.known y hy)
  asked := hresumes.asked hu h.asked
  call := h.call
  is := A.later hu h.is
  settled := h.settled

theorem Charges.append {made done : List (Value × Arguments Value)} {as bs : List V}
    (h : Charges K made as) (g : Charges K done bs) : Charges K (made ++ done) (as ++ bs) := by
  obtain ⟨xs, rfl, rfl⟩ := h
  obtain ⟨ys, rfl, rfl⟩ := g
  exact ⟨xs ++ ys, by simp, by simp⟩

/-- What has the same memory and is later is in the same state of the turn. -/
theorem Making.move {strict : Prop} {recording outer : Nat} {root w u z : S.World}
    {ys : List Value} {i : Nat} {made : List (Value × Arguments Value)}
    (hresumes : Resumes A K root)
    (h : Making A K turns strict recording outer w ys i made u) (hz : C.Later u z)
    (hmemory : (S.store z).memos[K.memo]? = (S.store u).memos[K.memo]?)
    (hplace : (S.store z).recordings[recording]? = (S.store u).recordings[recording]?)
    (hrunning : (S.store z).generators[outer]? = (S.store u).generators[outer]?) :
    Making A K turns strict recording outer w ys i made z where
  later := C.trans h.later hz
  allocated := Store.allocated_of_eq hmemory h.allocated
  place := hplace.trans h.place
  running := hrunning.trans h.running
  genuine m hm := by
    rw [Store.memory_eq hmemory] at hm
    exact (h.genuine m hm).later hresumes hz
  added := by
    rw [Store.memory_eq hmemory]
    exact h.added
  charged := h.charged

theorem Making.aside {strict : Prop} {recording outer : Nat} {root w u z : S.World}
    {ys : List Value} {i : Nat} {made : List (Value × Arguments Value)} {own : Option Nat}
    (hresumes : Resumes A K root) (hrecording : K.firstRecording ≤ recording)
    (houter : K.firstGenerator ≤ outer) (hown : own ≠ some outer)
    (h : Making A K turns strict recording outer w ys i made u) (hz : Aside C K own u z) :
    Making A K turns strict recording outer w ys i made z := by
  have hplace := (Array.getElem?_eq_some_iff.1 h.place).1
  have hrunning := (Array.getElem?_eq_some_iff.1 h.running).1
  exact h.move hresumes hz.1 hz.2.memory (hz.2.recordings recording hrecording hplace)
    (hz.2.generators outer houter hrunning hown)

end Making

end AlgebraicEffects
