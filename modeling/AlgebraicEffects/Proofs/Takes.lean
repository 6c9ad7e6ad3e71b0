import AlgebraicEffects.Proofs.Calls

/-!
How many calls a run takes.

A run that goes through a call takes one call more than the body of what is called, so what is known of
runs that take fewer calls can be used there. Each rule says exactly what the parts of a run take.
-/

set_option autoImplicit false

namespace AlgebraicEffects.Action

variable {α β : Type} {n : Nat} {s t u : Store}

/-- The action runs to this end, and makes so many calls on its way, those inside calls included. -/
def Takes (n : Nat) (a : Action α) (s : Store) (r : Except Failure α) (t : Store) : Prop :=
  ∃ cs, Traced a s cs r t ∧ weight cs = n

theorem Takes.runs {a : Action α} {r : Except Failure α} (h : Takes n a s r t) :
    Runs Value.apply a s r t := by
  obtain ⟨cs, h, -⟩ := h
  exact h.runs

theorem Runs.exists_takes {a : Action α} {r : Except Failure α} (h : Runs Value.apply a s r t) :
    ∃ n, Takes n a s r t := by
  obtain ⟨cs, h⟩ := h.exists_traced
  exact ⟨_, cs, h, rfl⟩

theorem takes_done_iff {x : α} {r : Except Failure α} :
    Takes n (.done x) s r t ↔ n = 0 ∧ r = .ok x ∧ t = s := by
  constructor
  · rintro ⟨cs, h, rfl⟩
    cases h
    exact ⟨rfl, rfl, rfl⟩
  · rintro ⟨rfl, rfl, rfl⟩
    exact ⟨[], .done x _, rfl⟩

theorem takes_fail_iff {f : Failure} {r : Except Failure α} :
    Takes n (.fail f : Action α) s r t ↔ n = 0 ∧ r = .error f ∧ t = s := by
  constructor
  · rintro ⟨cs, h, rfl⟩
    cases h
    exact ⟨rfl, rfl, rfl⟩
  · rintro ⟨rfl, rfl, rfl⟩
    exact ⟨[], .fail f _, rfl⟩

theorem takes_read_iff {k : Store → Action α} {r : Except Failure α} :
    Takes n (.read k) s r t ↔ Takes n (k s) s r t := by
  constructor
  · rintro ⟨cs, h, hn⟩
    cases h with | read h => exact ⟨cs, h, hn⟩
  · rintro ⟨cs, h, hn⟩
    exact ⟨cs, .read h, hn⟩

theorem takes_write_iff {change : Store → Store} {k : Action α} {r : Except Failure α} :
    Takes n (.write change k) s r t ↔ Takes n k (change s) r t := by
  constructor
  · rintro ⟨cs, h, hn⟩
    cases h with | write h => exact ⟨cs, h, hn⟩
  · rintro ⟨cs, h, hn⟩
    exact ⟨cs, .write h, hn⟩

/-- A sequence takes what its parts take. -/
theorem takes_bind_iff {a : Action α} {k : α → Action β} {r : Except Failure β} :
    Takes n (a.bind k) s r u ↔
      (∃ i j x t, n = i + j ∧ Takes i a s (.ok x) t ∧ Takes j (k x) t r u) ∨
        ∃ f, r = .error f ∧ Takes n a s (.error f) u := by
  constructor
  · rintro ⟨cs, h, rfl⟩
    rcases runs_bind_iff.1 h.runs with ⟨x, t, hx, -⟩ | ⟨f, rfl, hf⟩
    · obtain ⟨ds, hx⟩ := hx.exists_traced
      obtain ⟨es, rfl, hk⟩ := h.of_bind hx
      exact .inl ⟨_, _, x, t, weight_append ds es, ⟨ds, hx, rfl⟩, ⟨es, hk, rfl⟩⟩
    · obtain ⟨ds, hf⟩ := hf.exists_traced
      obtain ⟨rfl, -, -⟩ := h.unique hf.bind_error
      exact .inr ⟨f, rfl, cs, hf, rfl⟩
  · rintro (⟨i, j, x, t, rfl, ⟨ds, hx, rfl⟩, ⟨es, hk, rfl⟩⟩ | ⟨f, rfl, cs, hf, hn⟩)
    · exact ⟨ds ++ es, hx.bind hk, weight_append ds es⟩
    · exact ⟨cs, hf.bind_error, hn⟩

/-- A call takes one call more than the body of what is called. -/
theorem takes_invoke_iff {f : Value} {arguments : Arguments Value} {o : Ending} :
    Takes n (invoke f arguments) s o t ↔ ∃ m, n = m + 1 ∧ Takes m (f.apply arguments) s o t := by
  constructor
  · rintro ⟨cs, h, rfl⟩
    obtain ⟨inner, rfl, hbody⟩ := h.of_invoke
    exact ⟨weight inner, by rw [weight_singleton]; omega, inner, hbody, rfl⟩
  · rintro ⟨m, rfl, inner, h, rfl⟩
    exact ⟨_, h.invoke, by rw [weight_singleton]; omega⟩

theorem takes_ask_iff {f : Value} {vs : List Value} {o : Ending} :
    Takes n (ask f vs) s o t ↔ ∃ m, n = m + 1 ∧ Takes m (f.apply (.of vs)) s o t := takes_invoke_iff

/-- An action ends in at most one way, and takes as many calls each time. -/
theorem Takes.unique {a : Action α} {m : Nat} {r q : Except Failure α} (h : Takes n a s r t)
    (g : Takes m a s q u) : n = m ∧ r = q ∧ t = u := by
  obtain ⟨cs, h, rfl⟩ := h
  obtain ⟨ds, g, rfl⟩ := g
  obtain ⟨rfl, rfl, rfl⟩ := h.unique g
  exact ⟨rfl, rfl, rfl⟩

end AlgebraicEffects.Action
