import AlgebraicEffects.Action

/-!
What an action does, as a relation.

`Runs body a s r t` says that the action `a` begun in the store `s` ends as `r` and leaves the store
`t`, where `body` says what each value does when it is called. A call is one premise, whatever it
calls in turn, so the relation has neither a stack nor fuel. Main statements: an action ends in at
most one way (`Runs.unique`), a sequence ends as its parts do one after the other (`runs_bind_iff`),
and the machine reaches exactly the ends of the relation (`exists_run_iff`).
-/

set_option autoImplicit false

namespace AlgebraicEffects.Action

variable {α β : Type} {body : Value → Arguments Value → Action Value}

inductive Runs (body : Value → Arguments Value → Action Value) :
    {α : Type} → Action α → Store → Except Failure α → Store → Prop where
  | done {α : Type} (x : α) (s : Store) : Runs body (.done x) s (.ok x) s
  | fail {α : Type} (f : Failure) (s : Store) : Runs body (.fail f : Action α) s (.error f) s
  | read {α : Type} {k : Store → Action α} {s t : Store} {r : Except Failure α} :
      Runs body (k s) s r t → Runs body (.read k) s r t
  | write {α : Type} {change : Store → Store} {k : Action α} {s t : Store} {r : Except Failure α} :
      Runs body k (change s) r t → Runs body (.write change k) s r t
  | call {α : Type} {f : Value} {arguments : Arguments Value} {k : Ending → Action α}
      {s t u : Store} {o : Ending} {r : Except Failure α} :
      Runs body (body f arguments) s o t → Runs body (k o) t r u →
      Runs body (.call f arguments k) s r u

/-- An action ends in at most one way. -/
theorem Runs.unique {a : Action α} {s t u : Store} {r q : Except Failure α}
    (h : Runs body a s r t) (g : Runs body a s q u) : r = q ∧ t = u := by
  induction h generalizing u with
  | done x s => cases g; exact ⟨rfl, rfl⟩
  | fail f s => cases g; exact ⟨rfl, rfl⟩
  | read _ ih => cases g with | read g => exact ih g
  | write _ ih => cases g with | write g => exact ih g
  | call _ _ ihf ihk =>
    cases g with
    | call gf gk =>
      obtain ⟨rfl, rfl⟩ := ihf gf
      exact ihk gk

theorem Runs.bind {a : Action α} {k : α → Action β} {s t u : Store} {x : α} {r : Except Failure β}
    (h : Runs body a s (.ok x) t) (g : Runs body (k x) t r u) : Runs body (a.bind k) s r u := by
  generalize hq : Except.ok x = q at h
  induction h with
  | done y s => cases hq; exact g
  | fail f s => cases hq
  | read _ ih => exact .read (ih g hq)
  | write _ ih => exact .write (ih g hq)
  | call hf _ _ ih => exact .call hf (ih g hq)

theorem Runs.bind_error {a : Action α} {k : α → Action β} {s t : Store} {f : Failure}
    (h : Runs body a s (.error f) t) : Runs body (a.bind k) s (.error f) t := by
  generalize hq : Except.error f = q at h
  induction h with
  | done y s => cases hq
  | fail e s => cases hq; exact .fail f s
  | read _ ih => exact .read (ih hq)
  | write _ ih => exact .write (ih hq)
  | call hf _ _ ih => exact .call hf (ih hq)

theorem Runs.map {a : Action α} {s t : Store} {r : Except Failure α} (h : Runs body a s r t)
    (f : α → β) : Runs body (f <$> a) s (r.map f) t := by
  cases r with
  | ok x => exact h.bind (.done (f x) t)
  | error e => exact h.bind_error

/-- A call that passes on how it ends. -/
theorem Runs.invoke {f : Value} {arguments : Arguments Value} {s t : Store} {o : Ending}
    (h : Runs body (body f arguments) s o t) : Runs body (Action.invoke f arguments) s o t := by
  cases o with
  | ok v => exact .call h (.done v t)
  | error e => exact .call h (.fail e t)

/-- A sequence ends as its second part after the first has given a value, or as the failure of its
first part. -/
theorem runs_bind_iff {a : Action α} {k : α → Action β} {s u : Store} {r : Except Failure β} :
    Runs body (a.bind k) s r u ↔
      (∃ x t, Runs body a s (.ok x) t ∧ Runs body (k x) t r u) ∨
        ∃ f, r = .error f ∧ Runs body a s (.error f) u := by
  constructor
  · intro h
    induction a generalizing s with
    | done x => exact .inl ⟨x, s, .done x s, h⟩
    | fail f => cases h with | fail _ _ => exact .inr ⟨f, rfl, .fail f _⟩
    | read _ ih =>
      cases h with
      | read h =>
        rcases ih s h with ⟨x, t, hx, hk⟩ | ⟨f, hr, hf⟩
        · exact .inl ⟨x, t, .read hx, hk⟩
        · exact .inr ⟨f, hr, .read hf⟩
    | write c _ ih =>
      cases h with
      | write h =>
        rcases ih h with ⟨x, t, hx, hk⟩ | ⟨f, hr, hf⟩
        · exact .inl ⟨x, t, .write hx, hk⟩
        · exact .inr ⟨f, hr, .write hf⟩
    | call f as _ ih =>
      cases h with
      | call hc h =>
        rcases ih _ h with ⟨x, t, hx, hk⟩ | ⟨f, hr, hf⟩
        · exact .inl ⟨x, t, .call hc hx, hk⟩
        · exact .inr ⟨f, hr, .call hc hf⟩
  · rintro (⟨x, t, hx, hk⟩ | ⟨f, rfl, hf⟩)
    · exact hx.bind hk
    · exact hf.bind_error

/-- Once it is known what the first part gives, a sequence runs as the second. -/
theorem Runs.bind_iff {a : Action α} {k : α → Action β} {s t u : Store} {x : α}
    {r : Except Failure β} (h : Runs body a s (.ok x) t) :
    Runs body (a.bind k) s r u ↔ Runs body (k x) t r u := by
  constructor
  · intro hbind
    rcases runs_bind_iff.1 hbind with ⟨y, w, ha, hk⟩ | ⟨f, -, ha⟩
    · obtain ⟨hy, rfl⟩ := h.unique ha
      cases hy
      exact hk
    · cases (h.unique ha).1
  · exact h.bind

/-- Attempting an action never fails and shows how it ended. -/
theorem runs_attempt_iff {a : Action α} {s t : Store} {r : Except Failure (Except Failure α)} :
    Runs body a.attempt s r t ↔ ∃ o, r = .ok o ∧ Runs body a s o t := by
  constructor
  · intro h
    induction a generalizing s with
    | done x => cases h with | done _ _ => exact ⟨.ok x, rfl, .done x _⟩
    | fail f => cases h with | done _ _ => exact ⟨.error f, rfl, .fail f _⟩
    | read _ ih =>
      cases h with
      | read h =>
        obtain ⟨o, hr, ho⟩ := ih s h
        exact ⟨o, hr, .read ho⟩
    | write c _ ih =>
      cases h with
      | write h =>
        obtain ⟨o, hr, ho⟩ := ih h
        exact ⟨o, hr, .write ho⟩
    | call f as _ ih =>
      cases h with
      | call hc h =>
        obtain ⟨o, hr, ho⟩ := ih _ h
        exact ⟨o, hr, .call hc ho⟩
  · rintro ⟨o, rfl, h⟩
    induction h with
    | done x s => exact .done (Except.ok x) s
    | fail f s => exact .done (Except.error f) s
    | read _ ih => exact .read ih
    | write _ ih => exact .write ih
    | call hf _ _ ih => exact .call hf ih

/-- The machine comes from an action to its end, with any continuations still pending. -/
theorem Runs.run_add {a : Action Value} {s t : Store} {r : Ending} (h : Runs body a s r t)
    (ks : Pending) : ∃ n, ∀ m, run body (m + n) a ks s = run body m (ofExcept r) ks t := by
  revert ks
  suffices ∀ {α : Type} {a : Action α} {s t : Store} {r : Except Failure α},
      Runs body a s r t → ∀ (e : α = Value) (ks : Pending),
        ∃ n, ∀ m, run body (m + n) (e ▸ a) ks s = run body m (ofExcept (e ▸ r)) ks t from
    this h rfl
  intro α a s t r h
  induction h with
  | done x s =>
    rintro rfl ks
    exact ⟨0, fun m => rfl⟩
  | fail f s =>
    rintro rfl ks
    exact ⟨0, fun m => rfl⟩
  | read _ ih =>
    rintro rfl ks
    obtain ⟨n, hn⟩ := ih rfl ks
    exact ⟨n + 1, hn⟩
  | write _ ih =>
    rintro rfl ks
    obtain ⟨n, hn⟩ := ih rfl ks
    exact ⟨n + 1, hn⟩
  | @call _ f as k s t u o r _ _ ihf ihk =>
    rintro rfl ks
    obtain ⟨n, hn⟩ := ihf rfl (k :: ks)
    obtain ⟨l, hl⟩ := ihk rfl ks
    have resumed (m : Nat) : run body (m + 1) (ofExcept o) (k :: ks) t = run body m (k o) ks t := by
      cases o <;> rfl
    refine ⟨l + 1 + n + 1, fun m => ?_⟩
    calc run body (m + (l + 1 + n + 1)) (.call f as k) ks s
        = run body (m + l + 1 + n) (body f as) (k :: ks) s := by
          rw [show m + (l + 1 + n + 1) = (m + l + 1 + n) + 1 by omega, run]
      _ = run body (m + l + 1) (ofExcept o) (k :: ks) t := hn _
      _ = run body (m + l) (k o) ks t := resumed _
      _ = run body m (ofExcept r) ks u := hl m

/-- A finished run of the machine begins with an end of its action. -/
theorem exists_runs_of_run {n : Nat} {a : Action Value} {ks : Pending} {s : Store}
    {e : Ending × Store} (h : run body n a ks s = some e) :
    ∃ r t m, m ≤ n ∧ Runs body a s r t ∧ run body m (ofExcept r) ks t = some e := by
  induction n using Nat.strongRecOn generalizing a ks s with
  | ind n ih =>
    cases n with
    | zero => simp [run] at h
    | succ n =>
      cases a with
      | done v => exact ⟨.ok v, s, n + 1, Nat.le_refl _, .done v s, h⟩
      | fail f => exact ⟨.error f, s, n + 1, Nat.le_refl _, .fail f s, h⟩
      | read k =>
        simp only [run] at h
        obtain ⟨r, t, m, hm, hr, hrun⟩ := ih n (Nat.lt_succ_self n) h
        exact ⟨r, t, m, Nat.le_succ_of_le hm, .read hr, hrun⟩
      | write c k =>
        simp only [run] at h
        obtain ⟨r, t, m, hm, hr, hrun⟩ := ih n (Nat.lt_succ_self n) h
        exact ⟨r, t, m, Nat.le_succ_of_le hm, .write hr, hrun⟩
      | call f as k =>
        simp only [run] at h
        obtain ⟨o, t, m, hm, ho, hrun⟩ := ih n (Nat.lt_succ_self n) h
        cases m with
        | zero => simp [run] at hrun
        | succ m =>
          have resumed : run body m (k o) ks t = some e := by
            cases o <;> simpa only [ofExcept, run] using hrun
          obtain ⟨r, u, l, hl, hr, hlast⟩ := ih m (by omega) resumed
          exact ⟨r, u, l, by omega, .call ho hr, hlast⟩

/-- The machine reaches exactly the ends of the relation. -/
theorem exists_run_iff {a : Action Value} {s t : Store} {r : Ending} :
    (∃ n, run body n a [] s = some (r, t)) ↔ Runs body a s r t := by
  constructor
  · rintro ⟨n, h⟩
    obtain ⟨q, u, m, _, hq, hrun⟩ := exists_runs_of_run h
    cases m with
    | zero => simp [run] at hrun
    | succ m =>
      cases q <;> simp only [ofExcept, run, Option.some.injEq, Prod.mk.injEq] at hrun <;>
        obtain ⟨rfl, rfl⟩ := hrun <;> exact hq
  · intro h
    obtain ⟨n, hn⟩ := h.run_add []
    exact ⟨1 + n, by rw [hn 1]; cases r <;> rfl⟩

end AlgebraicEffects.Action
