import AlgebraicEffects.Proofs.Replay.Generators

/-!
Runs of the statements of a body.

A generator that a script has written goes on with the first of its statements. One rule per statement
says how far it goes from there: to the next one, to a `yield`, where it is suspended with the statements
that are left, or to its end.
-/

set_option autoImplicit false

namespace AlgebraicEffects

open Action (Runs)

section Expressions

variable {scope : Scope}

theorem evalAll_cons {e : Expr} {es : List Expr} {v : Value} {vs : List Value}
    (h : e.eval scope = .done v) (hs : evalAll scope es = .done vs) :
    evalAll scope (e :: es) = .done (v :: vs) := by
  simp only [evalAll, h, hs]
  rfl

/-- A form whose operands need no run is performed on their values. -/
theorem Expr.eval_form {f : Form} {es : List Expr} {vs : List Value}
    (h : evalAll scope es = .done vs) : (Expr.form f es []).eval scope = f.perform ⟨vs, []⟩ := by
  simp only [Expr.eval, h]
  rfl

/-- A form with one operand is performed on what running the operand gives. -/
theorem Expr.eval_form_one (f : Form) (e : Expr) :
    (Expr.form f [e] []).eval scope = (e.eval scope).bind fun v => f.perform ⟨[v], []⟩ := by
  simp only [Expr.eval, evalAll]
  exact Action.bind_assoc _ _ _

theorem Expr.eval_form_two {f : Form} {d e : Expr} {u v : Value} (hd : d.eval scope = .done u)
    (he : e.eval scope = .done v) :
    (Expr.form f [d, e] []).eval scope = f.perform ⟨[u, v], []⟩ :=
  eval_form (evalAll_cons hd (evalAll_cons he rfl))

/-- An integer that is not too long can be read. -/
theorem Expr.eval_int {n : Int} (h : isTooLong n = false) :
    (Expr.literal (.int n)).eval scope = .done (.int n) := by
  have hread : (Expr.literal (.int n)).eval scope =
      if !isTooLong n then Action.identify (.int n) else .fault .badValue := by rw [Expr.eval]; rfl
  rw [hread, h]
  rfl

end Expressions

namespace Generator

variable {g : Nat} {scope : Scope} {x : Option String} {e : Expr} {rest : List Stmt}
  {frames : List Frame} {s t u : Store} {v answer : Value} {r : Ending}

/-- A body that yields is suspended with the statements that are left. -/
theorem runs_go_yield (h : Runs Value.apply (e.eval scope) s (.ok v) t) :
    Runs Value.apply (go g scope (.block (.yield x e :: rest) :: frames)) s (.ok v)
      (t.setGenerator g (.suspended x scope (.block rest :: frames))) :=
  Runs.invoke ((Action.runs_attempt_iff.2 ⟨.ok v, rfl, h⟩).bind (.write (.done v _)))

theorem runs_go_set {y : String} (h : Runs Value.apply (e.eval scope) s (.ok v) t)
    (hrest : Runs Value.apply (go g (Scope.set y v scope) (.block rest :: frames)) t r u) :
    Runs Value.apply (go g scope (.block (.set y e :: rest) :: frames)) s r u :=
  Runs.invoke ((Action.runs_attempt_iff.2 ⟨.ok v, rfl, h⟩).bind hrest)

/-- A body that returns ends its generator with the value. -/
theorem runs_go_finish (h : Runs Value.apply (e.eval scope) s (.ok v) t) :
    Runs Value.apply (go g scope (.block (.finish e :: rest) :: frames)) s (.error (.exhausted v)) t :=
  Runs.invoke ((Action.runs_attempt_iff.2 ⟨.ok v, rfl, h⟩).bind (.fail _ t))

/-- Advanced with this answer, the generator goes on from here: from the beginning of its body, or from
where it has been suspended. -/
inductive Resumes (s : Store) (g : Nat) (answer : Value) : Scope → List Frame → Prop where
  | started {scope : Scope} {body : List Stmt} :
      s.generatorAt g = .fresh scope body → Resumes s g answer scope [.block body]
  | resumed {x : Option String} {scope : Scope} {frames : List Frame} :
      s.generatorAt g = .suspended x scope frames →
      Resumes s g answer (Scope.receive x answer scope) frames

namespace Resumes

theorem exists_advance (h : Resumes s g answer scope frames)
    (hguarded : Runs Value.apply (guarded g (go g scope frames)) s r t) :
    ∃ cs, Action.Traced (advance g answer) s cs r t := by
  obtain ⟨cs, htr⟩ := hguarded.exists_traced
  cases h with
  | started hstate =>
    exact ⟨cs, traced_advance_of_scripted (.inl ⟨_, _, hstate⟩)
      (traced_advanceBody_of_fresh hstate htr)⟩
  | resumed hstate =>
    exact ⟨cs, traced_advance_of_scripted (.inr ⟨_, _, _, hstate⟩)
      (traced_advanceBody_of_suspended hstate htr)⟩

theorem runs_yielded (h : Resumes s g answer scope frames)
    (hgo : Runs Value.apply (go g scope frames) (s.setGenerator g .running) (.ok v) t) :
    Runs Value.apply (progress g answer) s (.ok (.yielded v)) t := by
  obtain ⟨cs, htr⟩ := hgo.exists_traced
  obtain ⟨ds, hadvance⟩ := h.exists_advance (traced_guarded htr).runs
  exact (traced_progress_yielded hadvance).runs

theorem runs_returned (h : Resumes s g answer scope frames)
    (hgo : Runs Value.apply (go g scope frames) (s.setGenerator g .running)
      (.error (.exhausted v)) t) :
    Runs Value.apply (progress g answer) s (.ok (.returned v)) (t.setGenerator g .finished) := by
  obtain ⟨cs, htr⟩ := hgo.exists_traced
  obtain ⟨ds, hadvance⟩ := h.exists_advance (traced_guarded_error htr).runs
  exact (traced_progress_returned hadvance).runs

theorem runs_failed {f : Failure} (h : Resumes s g answer scope frames)
    (hgo : Runs Value.apply (go g scope frames) (s.setGenerator g .running) (.error f) t)
    (hf : ∀ v, f ≠ .exhausted v) :
    Runs Value.apply (progress g answer) s (.error f) (t.setGenerator g .finished) := by
  obtain ⟨cs, htr⟩ := hgo.exists_traced
  obtain ⟨ds, hadvance⟩ := h.exists_advance (traced_guarded_error htr).runs
  exact (traced_progress_failed hf hadvance).runs

end Resumes

end Generator

end AlgebraicEffects
