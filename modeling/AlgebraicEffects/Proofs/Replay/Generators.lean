import AlgebraicEffects.Proofs.Calls

/-!
Runs of generator objects.

What one step of a generator object does to the store: its state is read, it is marked as running,
and when its body has stopped it is suspended again or has finished. Nothing here depends on what the
body is.
-/

set_option autoImplicit false

namespace AlgebraicEffects

open Action (Traced)

/-- The state of a generator object; one that was never made has finished. -/
def Store.generatorAt (s : Store) (address : Nat) : GeneratorState :=
  s.generators.getD address .finished

/-- The store with a generator object in another state. -/
def Store.setGenerator (s : Store) (address : Nat) (state : GeneratorState) : Store :=
  { s with generators := s.generators.setIfInBounds address state }

/-- The store with one more generator object. -/
def Store.addGenerator (s : Store) (state : GeneratorState) : Store :=
  { s with generators := s.generators.push state }

/-- The store in which a recording has noted one more answer. -/
def Store.noteAnswer (s : Store) (recording : Nat) (answer : Value) : Store :=
  { s with
    recordings := s.recordings.modify recording fun r =>
      { r with received := r.received ++ [answer], calls := 0 } }

namespace Store

theorem generatorAt_eq {s : Store} {address : Nat} {state : GeneratorState}
    (h : s.generators[address]? = some state) : s.generatorAt address = state := by
  rw [generatorAt, Array.getD_eq_getD_getElem?, h]
  rfl

@[simp] theorem generatorAt_setGenerator (s : Store) (address : Nat) (state : GeneratorState)
    (h : address < s.generators.size) :
    (s.setGenerator address state).generatorAt address = state := by
  simp [generatorAt, setGenerator, Array.getD_eq_getD_getElem?, h]

@[simp] theorem generatorAt_addGenerator (s : Store) (state : GeneratorState) :
    (s.addGenerator state).generatorAt s.generators.size = state := by
  simp [generatorAt, addGenerator, Array.getD_eq_getD_getElem?]

@[simp] theorem size_setGenerator (s : Store) (address : Nat) (state : GeneratorState) :
    (s.setGenerator address state).generators.size = s.generators.size := by
  simp [setGenerator]

@[simp] theorem size_addGenerator (s : Store) (state : GeneratorState) :
    (s.addGenerator state).generators.size = s.generators.size + 1 := by
  simp [addGenerator]

end Store

namespace Generator

variable {s t : Store} {address : Nat} {cs : List Call}

theorem traced_setState (s : Store) (address : Nat) (state : GeneratorState) :
    Traced (setState address state) s [] (.ok ()) (s.setGenerator address state) :=
  .write (.done _ _)

theorem traced_state (s : Store) (address : Nat) :
    Traced (state address) s [] (.ok (s.generatorAt address)) s :=
  .read (.done _ _)

/-- A step that succeeds leaves the generator as the step has left it. -/
theorem traced_guarded {step : Action Value} {v : Value}
    (h : Traced step (s.setGenerator address .running) cs (.ok v) t) :
    Traced (guarded address step) s cs (.ok v) t := by
  refine (traced_setState s address .running).bind ?_
  rw [← List.append_nil cs]
  exact h.attempt.bind (.done v t)

/-- A step that fails finishes the generator. -/
theorem traced_guarded_error {step : Action Value} {f : Failure}
    (h : Traced step (s.setGenerator address .running) cs (.error f) t) :
    Traced (guarded address step) s cs (.error f) (t.setGenerator address .finished) := by
  refine (traced_setState s address .running).bind ?_
  rw [← List.append_nil cs]
  exact h.attempt.bind (.write (.fail f (t.setGenerator address .finished)))

/-- A guarded step that ends has been taken. -/
theorem exists_of_guarded {step : Action Value} {r : Ending}
    (h : Traced (guarded address step) s cs r t) :
    ∃ ds q u, Traced step (s.setGenerator address .running) ds q u := by
  obtain ⟨es, -, h⟩ := Traced.of_bind h (traced_setState s address .running)
  obtain ⟨ds, q, u, h⟩ := Traced.exists_of_bind h
  obtain ⟨q, -, h⟩ := h.of_attempt
  exact ⟨ds, q, u, h⟩

section Advance

variable {r : Ending} {answer : Value}

theorem traced_advanceBody_of_fresh {scope : Scope} {body : List Stmt}
    (hstate : s.generatorAt address = .fresh scope body)
    (h : Traced (guarded address
      (Action.ask (.arrowOf (.proceeding address scope [.block body])) [])) s cs r t) :
    Traced (advanceBody address answer) s cs r t := by
  refine (traced_state s address).bind ?_
  rw [hstate]
  exact h

theorem traced_advanceBody_of_suspended {x : Option String} {scope : Scope} {frames : List Frame}
    (hstate : s.generatorAt address = .suspended x scope frames)
    (h : Traced (guarded address
      (Action.ask (.arrowOf (.proceeding address (Scope.receive x answer scope) frames)) []))
      s cs r t) :
    Traced (advanceBody address answer) s cs r t := by
  refine (traced_state s address).bind ?_
  rw [hstate]
  exact h

/-- A generator object that records nothing advances its own body. -/
theorem traced_advance_of_scripted
    (hstate : (∃ scope body, s.generatorAt address = .fresh scope body) ∨
      ∃ x scope frames, s.generatorAt address = .suspended x scope frames)
    (h : Traced (advanceBody address answer) s cs r t) :
    Traced (advance address answer) s cs r t := by
  refine (traced_state s address).bind ?_
  rcases hstate with ⟨scope, body, hs⟩ | ⟨x, scope, frames, hs⟩
  · rw [hs]
    exact h
  · rw [hs]
    exact h

section Recording

variable {recording inner : Nat} {implementation : Value} {arguments : List Value} {name : String}
  {ds : List Call} {u : Store} {v : Value}

/-- A recording generator that starts makes the generator inside it and advances that. -/
theorem traced_advance_recording
    (hstate : s.generatorAt address = .recording recording implementation arguments)
    (hmade : Traced (implementation.apply (.of arguments)) (s.setGenerator address .running) cs
      (.ok (.generator inner name)) t)
    (h : Traced (advanceBody inner .nothing) t ds (.ok v) u) :
    Traced (advance address answer) s (.mk implementation (.of arguments) cs :: ds) (.ok v)
      (u.setGenerator address (.recordingSuspended recording inner)) := by
  refine (traced_state s address).bind ?_
  rw [hstate]
  refine traced_guarded ?_
  rw [← List.append_nil ds]
  exact hmade.invoke.bind (h.bind ((traced_setState u address _).bind (.done v _)))

theorem traced_advance_recording_error {f : Failure}
    (hstate : s.generatorAt address = .recording recording implementation arguments)
    (hmade : Traced (implementation.apply (.of arguments)) (s.setGenerator address .running) cs
      (.ok (.generator inner name)) t)
    (h : Traced (advanceBody inner .nothing) t ds (.error f) u) :
    Traced (advance address answer) s (.mk implementation (.of arguments) cs :: ds) (.error f)
      (u.setGenerator address .finished) := by
  refine (traced_state s address).bind ?_
  rw [hstate]
  exact traced_guarded_error (hmade.invoke.bind h.bind_error)

/-- A recording generator notes the answer before it advances the generator inside it. -/
theorem traced_advance_recorded
    (hstate : s.generatorAt address = .recordingSuspended recording inner)
    (h : Traced (advanceBody inner answer)
      ((s.setGenerator address .running).noteAnswer recording answer) ds (.ok v) u) :
    Traced (advance address answer) s ds (.ok v)
      (u.setGenerator address (.recordingSuspended recording inner)) := by
  refine (traced_state s address).bind ?_
  rw [hstate]
  refine traced_guarded (.write ?_)
  rw [← List.append_nil ds]
  exact h.bind ((traced_setState u address _).bind (.done v _))

theorem traced_advance_recorded_error {f : Failure}
    (hstate : s.generatorAt address = .recordingSuspended recording inner)
    (h : Traced (advanceBody inner answer)
      ((s.setGenerator address .running).noteAnswer recording answer) ds (.error f) u) :
    Traced (advance address answer) s ds (.error f) (u.setGenerator address .finished) := by
  refine (traced_state s address).bind ?_
  rw [hstate]
  exact traced_guarded_error (.write h.bind_error)

/-- A recording generator that starts and comes to an end has advanced the generator inside it. -/
theorem exists_of_advance_recording
    (h : Traced (advance address answer) s ds r u)
    (hstate : s.generatorAt address = .recording recording implementation arguments)
    (hmade : Traced (implementation.apply (.of arguments)) (s.setGenerator address .running) cs
      (.ok (.generator inner name)) t) :
    ∃ es q v, Traced (advanceBody inner .nothing) t es q v := by
  obtain ⟨es, -, h⟩ := Traced.of_bind h (traced_state s address)
  rw [hstate] at h
  obtain ⟨es, q, v, h⟩ := exists_of_guarded h
  obtain ⟨fs, -, h⟩ := Traced.of_bind h hmade.invoke
  exact Traced.exists_of_bind h

theorem exists_of_advance_recorded
    (h : Traced (advance address answer) s ds r u)
    (hstate : s.generatorAt address = .recordingSuspended recording inner) :
    ∃ es q v, Traced (advanceBody inner answer)
      ((s.setGenerator address .running).noteAnswer recording answer) es q v := by
  obtain ⟨es, -, h⟩ := Traced.of_bind h (traced_state s address)
  rw [hstate] at h
  obtain ⟨es, q, v, h⟩ := exists_of_guarded h
  cases h with
  | write h => exact Traced.exists_of_bind h

end Recording

/-- What a generator yields. -/
theorem traced_progress_yielded {v : Value}
    (h : Traced (advance address answer) s cs (.ok v) t) :
    Traced (progress address answer) s cs (.ok (.yielded v)) t := by
  rw [← List.append_nil cs]
  exact h.attempt.bind (.done _ t)

/-- What a generator returns. -/
theorem traced_progress_returned {v : Value}
    (h : Traced (advance address answer) s cs (.error (.exhausted v)) t) :
    Traced (progress address answer) s cs (.ok (.returned v)) t := by
  rw [← List.append_nil cs]
  exact h.attempt.bind (.done _ t)

/-- A generator that fails otherwise passes its failure on. -/
theorem traced_progress_failed {f : Failure} (hf : ∀ v, f ≠ .exhausted v)
    (h : Traced (advance address answer) s cs (.error f) t) :
    Traced (progress address answer) s cs (.error f) t := by
  rw [← List.append_nil cs]
  refine h.attempt.bind ?_
  cases f with
  | exhausted v => exact absurd rfl (hf v)
  | _ => exact .fail _ t

theorem exists_of_progress {r : Except Failure Progress}
    (h : Traced (progress address answer) s cs r t) :
    ∃ ds q u, Traced (advance address answer) s ds q u := by
  obtain ⟨ds, q, u, h⟩ := Traced.exists_of_bind h
  obtain ⟨q, -, h⟩ := h.of_attempt
  exact ⟨ds, q, u, h⟩

end Advance

end Generator

end AlgebraicEffects
