import AlgebraicEffects.Proofs.Observation

/-!
Coroutines and their direct semantics.

A coroutine says where a body pauses after each history of answers: at a sub-program that it has
yielded, or at its end. Its program is the sub-program with the rest of the body grafted onto every
leaf: on the leaf that carries `a` goes the body after one answer more, which is `a`. The direct
semantics follows a path of answers through that program; it resumes the body as often as it likes
and replays nothing.
-/

set_option autoImplicit false

namespace AlgebraicEffects

open Action (Traced)

variable {V τ : Type}

/-- Where a body pauses: at the sub-program that it yields, or at its end. A body that has ended is
the program of what it returned, or has failed. -/
inductive Pause (τ : Type) where
  | yields (program : τ)
  | ends (program : τ)
  /-- The body runs on for ever. -/
  | diverges

/-- Where a body pauses after each history. -/
abbrev Coroutine (V τ : Type) := List V → Pause τ

namespace Coroutine

section Direct

variable {B : Coroutine V (Tree V)}

/-- From a pause after the history `h`, the answers `path` lead to the node `n`, where the body has
received the history `h'`. A leaf of a yielded sub-program is an answer to the body. -/
inductive At (B : Coroutine V (Tree V)) : Pause (Tree V) → List V → List V → List V → Node V → Prop where
  | ended {t : Tree V} {h path : List V} {n : Node V} : t path n → At B (.ends t) h path h n
  | operation {p : Tree V} {h : List V} {name : String} {params : List V} :
      p [] (.operation name params) → At B (.yields p) h [] h (.operation name params)
  | failure {p : Tree V} {h : List V} {f : V} :
      p [] (.failure f) → At B (.yields p) h [] h (.failure f)
  | answered {p : Tree V} {h path h' : List V} {name : String} {params : List V} {a : V}
      {n : Node V} :
      p [] (.operation name params) → At B (.yields (p.below a)) h path h' n →
      At B (.yields p) h (a :: path) h' n
  | leaf {p : Tree V} {h path h' : List V} {a : V} {n : Node V} :
      p [] (.leaf a) → At B (B (h ++ [a])) (h ++ [a]) path h' n → At B (.yields p) h path h' n

/-- The program of a coroutine that has received a history. -/
def direct (B : Coroutine V (Tree V)) (h : List V) : Tree V := fun path n => ∃ h', At B (B h) h path h' n

/-- The body receives answers one after the other. -/
theorem At.history {q : Pause (Tree V)} {h path h' : List V} {n : Node V} (d : At B q h path h' n) :
    h <+: h' := by
  induction d with
  | ended _ => exact List.prefix_refl _
  | operation _ => exact List.prefix_refl _
  | failure _ => exact List.prefix_refl _
  | answered _ _ ih => exact ih
  | leaf _ _ ih => exact (List.prefix_append _ _).trans ih

theorem At.not_diverges {q : Pause (Tree V)} {h path h' : List V} {n : Node V}
    (d : At B q h path h' n) : q ≠ .diverges := by
  rintro rfl
  cases d

end Direct

section Awaits

variable {B : Coroutine V τ}

/-- The body is still there to receive each answer of the history. -/
def Awaits (B : Coroutine V τ) (h : List V) : Prop :=
  ∀ k, k < h.length → ∃ t, B (h.take k) = .yields t

theorem awaits_nil : B.Awaits [] := fun _ hk => absurd hk (Nat.not_lt_zero _)

theorem Awaits.snoc {h : List V} {t : τ} (ha : B.Awaits h) (ht : B h = .yields t) (a : V) :
    B.Awaits (h ++ [a]) := by
  intro k hk
  by_cases hlt : k < h.length
  · rw [List.take_append_of_le_length (Nat.le_of_lt hlt)]
    exact ha k hlt
  · have hk' : k = h.length := by
      simp only [List.length_append, List.length_singleton] at hk
      omega
    subst hk'
    exact ⟨t, by rw [List.take_left]; exact ht⟩

/-- A body that is there to receive more has yielded something. -/
theorem Awaits.yields {h rest : List V} (ha : B.Awaits (h ++ rest)) (hrest : rest ≠ []) :
    ∃ t, B h = .yields t := by
  obtain ⟨t, ht⟩ := ha h.length (by
    have := List.length_pos_iff.2 hrest
    rw [List.length_append]
    omega)
  rw [List.take_left] at ht
  exact ⟨t, ht⟩

end Awaits

end Coroutine

/-- Where a generator stops that has been started and fed `count` answers: it has yielded a program
or a value, has returned one, or has failed. -/
inductive Stops {S : Scene V} (Is : S.World → Ending → τ → Prop) (w : S.World) (count : Nat) :
    Except Failure Replay.Fed → Pause τ → Prop where
  | yielded {v : Value} {t : τ} :
      Is w (.ok v) t → Stops Is w count (.ok (.yielded v)) (.yields t)
  | returned {v : Value} {t : τ} :
      Is w (.ok v) t → Stops Is w count (.ok (.returned v count)) (.ends t)
  | failed {f : Failure} {t : τ} :
      Is w (.error f) t → Stops Is w count (.error f) (.ends t)

/-- Where a generator stops when programs are taken for less. -/
theorem Stops.mono {S : Scene V} {Is Is' : S.World → Ending → τ → Prop} {w : S.World} {count : Nat}
    {fed : Except Failure Replay.Fed} {q : Pause τ} (h : Stops Is w count fed q)
    (hmono : ∀ e t, Is w e t → Is' w e t) : Stops Is' w count fed q := by
  cases h with
  | yielded h => exact .yielded (hmono _ _ h)
  | returned h => exact .returned (hmono _ _ h)
  | failed h => exact .failed (hmono _ _ h)

section Histories

variable {α : Type}

/-- The histories that are passed when answers are received after a history. -/
def passed : List α → List α → List (List α)
  | _, [] => []
  | ys, z :: zs => (ys ++ [z]) :: passed (ys ++ [z]) zs

theorem passed_append (ys zs xs : List α) :
    passed ys (zs ++ xs) = passed ys zs ++ passed (ys ++ zs) xs := by
  induction zs generalizing ys with
  | nil => simp [passed]
  | cons z zs ih => simp [passed, ih]

theorem map_passed {β : Type} (f : α → β) (ys zs : List α) :
    (passed ys zs).map (List.map f) = passed (ys.map f) (zs.map f) := by
  induction zs generalizing ys with
  | nil => rfl
  | cons z zs ih => simp [passed, ih]

theorem length_of_mem_passed {p ys zs : List α} (h : p ∈ passed ys zs) :
    ys.length < p.length ∧ p.length ≤ ys.length + zs.length := by
  induction zs generalizing ys with
  | nil => exact absurd h List.not_mem_nil
  | cons z zs ih =>
    rcases List.mem_cons.1 h with rfl | h
    · simp only [List.length_append, List.length_cons, List.length_nil]
      omega
    · have := ih h
      simp only [List.length_append, List.length_cons, List.length_nil] at this ⊢
      omega

/-- The histories on the way to one are those that it begins with. -/
theorem mem_passed_iff {p ys zs : List α} :
    p ∈ ys :: passed ys zs ↔ ys <+: p ∧ p <+: ys ++ zs := by
  induction zs generalizing ys with
  | nil =>
    rw [passed, List.mem_singleton, List.append_nil]
    constructor
    · rintro rfl
      exact ⟨List.prefix_refl _, List.prefix_refl _⟩
    · rintro ⟨hle, hge⟩
      exact hge.eq_of_length_le hle.length_le
  | cons z zs ih =>
    rw [passed, List.mem_cons, ih, List.append_assoc, List.singleton_append]
    constructor
    · rintro (rfl | ⟨hle, hge⟩)
      · exact ⟨List.prefix_refl _, List.prefix_append _ _⟩
      · exact ⟨(List.prefix_append _ _).trans hle, hge⟩
    · rintro ⟨⟨r, rfl⟩, hge⟩
      cases r with
      | nil => exact .inl (List.append_nil _)
      | cons x r =>
        obtain ⟨rfl, -⟩ := List.cons_prefix_cons.1 ((List.prefix_append_right_inj ys).1 hge)
        refine .inr ⟨⟨r, ?_⟩, hge⟩
        rw [List.append_assoc, List.singleton_append]

end Histories

namespace Replay

/-- Starts a generator and feeds it answers, as long as it takes them. -/
def sent (address : Nat) (answers : List Value) : Action Fed := do
  match ← Generator.progress address .nothing with
  | .yielded v => feed address v 0 answers
  | .returned v => return .returned v 0

section Feeding

variable {g k : Nat} {s t u : Store} {cs ds : List Call} {answer x y : Value} {ys : List Value}

theorem traced_sent {fed : Except Failure Fed}
    (h : Traced (Generator.progress g .nothing) s cs (.ok (.yielded x)) t)
    (hfeed : Traced (feed g x 0 ys) t ds fed u) : Traced (sent g ys) s (cs ++ ds) fed u :=
  h.bind hfeed

/-- A generator that returns at once is fed nothing. -/
theorem traced_sent_returned (h : Traced (Generator.progress g .nothing) s cs (.ok (.returned x)) t) :
    Traced (sent g ys) s cs (.ok (.returned x 0)) t := by
  rw [← List.append_nil cs]
  exact h.bind (.done _ t)

theorem traced_sent_failed {f : Failure}
    (h : Traced (Generator.progress g .nothing) s cs (.error f) t) :
    Traced (sent g ys) s cs (.error f) t :=
  h.bind_error

theorem traced_feed_nil (g : Nat) (x : Value) (k : Nat) (s : Store) :
    Traced (feed g x k []) s [] (.ok (.yielded x)) s :=
  .done _ _

theorem traced_feed_cons {fed : Except Failure Fed}
    (h : Traced (Generator.progress g answer) s cs (.ok (.yielded y)) t)
    (hfeed : Traced (feed g y (k + 1) ys) t ds fed u) :
    Traced (feed g x k (answer :: ys)) s (cs ++ ds) fed u :=
  h.bind hfeed

/-- A generator that returns is fed no further. -/
theorem traced_feed_returned
    (h : Traced (Generator.progress g answer) s cs (.ok (.returned y)) t) :
    Traced (feed g x k (answer :: ys)) s cs (.ok (.returned y (k + 1))) t := by
  rw [← List.append_nil cs]
  exact h.bind (.done _ t)

theorem traced_feed_failed {f : Failure}
    (h : Traced (Generator.progress g answer) s cs (.error f) t) :
    Traced (feed g x k (answer :: ys)) s cs (.error f) t :=
  h.bind_error

end Feeding

theorem lift_cases (v : Value) :
    (∃ tag name operands resume, v = .operation tag name operands resume) ∨
      ∃ tag x, Program.lift v = .leaf tag x := by
  by_cases hv : v.isProgram
  · rw [Program.lift, if_pos hv]
    cases v with
    | leaf tag x => exact .inr ⟨tag, x, rfl⟩
    | operation tag name operands resume => exact .inl ⟨tag, name, operands, resume, rfl⟩
    | _ => simp [Value.isProgram] at hv
  · exact .inr ⟨0, v, if_neg hv⟩

/-- At a leaf the graft is what `next` gives for its value. -/
theorem graft_of_leaf {v x next : Value} {tag : Nat} (hv : Program.lift v = .leaf tag x)
    (hnext : next.isCallable = true) :
    Program.graft v next = Program.lift <$> Action.ask next [x] := by
  unfold Program.graft
  rw [if_pos hnext]
  unfold Program.lift at hv
  by_cases hp : v.isProgram
  · rw [if_pos hp] at hv
    subst hv
    rfl
  · rw [if_neg hp] at hv
    cases hv
    split
    · exact absurd rfl hp
    · exact absurd rfl hp
    · rfl

theorem finish_of_all (factory v : Value) (tag : Nat) (ys : List Value) :
    finish factory (.tuple tag ys) v ys.length = .done (Program.lift v) := by
  have h : finish factory (.tuple tag ys) v ys.length =
      if ys.length < ys.length then _ else .done (Program.lift v) := rfl
  rw [h, if_neg (Nat.lt_irrefl _)]

/-- What becomes of a generator that has been fed a history. -/
def concluded (factory arguments : Value) (keywords : List (String × Value)) (history : Value) :
    Fed → Action Value
  | .yielded v => Program.graft v (.arrowOf (.replaying factory arguments keywords history))
  | .returned v consumed => finish factory history v consumed

/-- The continuation that a built program has on the leaves of a yielded sub-program. -/
def rebuild (factory : Value) (keywords : List (String × Value)) (a b : Nat)
    (positional ys : List Value) : Value :=
  .arrowOf (.replaying factory (.tuple a positional) keywords (.tuple b ys))

/-- Building a program is to make a generator, feed it the history and go on with what it does. -/
theorem buildOn_eq (factory arguments : Value) (positional answers : List Value)
    (keywords : List (String × Value)) (tag : Nat) :
    buildOn factory arguments positional keywords (.tuple tag answers) =
      (Action.invoke factory ⟨positional, keywords⟩).bind fun made =>
        match made with
        | .generator address _ =>
          (sent address answers).bind (concluded factory arguments keywords (.tuple tag answers))
        | v => .done (Program.lift v) := by
  refine congrArg _ (funext fun made => ?_)
  cases made with
  | generator address name =>
    refine Eq.symm ((Action.bind_assoc _ _ _).trans (congrArg _ (funext fun p => ?_)))
    cases p with
    | returned v => rfl
    | yielded v =>
      refine congrArg _ (funext fun f => ?_)
      cases f <;> rfl
  | _ => rfl

theorem traced_buildOn {factory arguments : Value} {positional answers : List Value}
    {keywords : List (String × Value)} {tag address : Nat} {name : String} {s t u : Store}
    {cs ds : List Call} {e : Ending}
    (hmade : Traced (Action.invoke factory ⟨positional, keywords⟩) s cs
      (.ok (.generator address name)) t)
    (hrest : Traced ((sent address answers).bind
      (concluded factory arguments keywords (.tuple tag answers))) t ds e u) :
    Traced (buildOn factory arguments positional keywords (.tuple tag answers)) s (cs ++ ds) e u := by
  rw [buildOn_eq]
  exact hmade.bind hrest

/-- Once its generator is made, building a program goes on by feeding it. -/
theorem traced_of_buildOn {factory arguments : Value} {positional answers : List Value}
    {keywords : List (String × Value)} {tag address : Nat} {name : String} {s t u : Store}
    {cs ds : List Call} {e : Ending}
    (h : Traced (buildOn factory arguments positional keywords (.tuple tag answers)) s cs e u)
    (hmade : Traced (Action.invoke factory ⟨positional, keywords⟩) s ds
      (.ok (.generator address name)) t) :
    ∃ es, cs = ds ++ es ∧ Traced ((sent address answers).bind
      (concluded factory arguments keywords (.tuple tag answers))) t es e u := by
  rw [buildOn_eq] at h
  exact h.of_bind hmade

end Replay

end AlgebraicEffects
