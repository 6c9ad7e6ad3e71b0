import AlgebraicEffects.Proofs.Runners.Outcomes

/-!
What a run leaves on its loop.

When the first evaluation of a run does not fail, the run answers only when nothing is outstanding on its
loop any more, and nothing happens afterwards (`runOnLoop_idle`). When it fails, the run answers at once,
and what was registered before the failure is left.
-/

set_option autoImplicit false

namespace AlgebraicEffects.Run

open Action (Runs Traced)

/-- The store in which a run on a loop of its own begins. -/
def opened (s : Store) : Store := { s with loopIsRunning := true }.withLoop

/-- The store after a loop has been closed. -/
def closed (loop : Nat) (s : Store) : Store :=
  { s with loops := s.loops.modify loop fun l => { l with isClosed := true }, loopIsRunning := false }

section Closing

variable {loop : Nat} {s t : Store}

/-- Replacing a loop by itself changes nothing. -/
theorem modify_self {loops : Array EventLoop} {l : EventLoop} (hl : loops[loop]? = some l) :
    (loops.modify loop fun _ => l) = loops := by
  refine Array.ext_getElem? fun i => ?_
  rw [Array.getElem?_modify]
  by_cases hi : loop = i
  · subst hi
    simp only [if_true, hl, Option.map_some]
  · rw [if_neg hi]

/-- The turn that closes an idle loop does nothing. -/
theorem traced_closingTurn {l : EventLoop} (hl : s.loops[loop]? = some l) (hidle : l.Idle) :
    Traced (Host.closingTurn loop) s [] (.ok ()) s := by
  refine .read ?_
  simp only [hl]
  have hbegin := hidle.beginTurnAt_now
  have hsame : { s with loops := s.loops.modify loop fun _ => (l.beginTurnAt l.now).2 } = s := by
    rw [hbegin, modify_self hl]
  refine .write ?_
  show Traced ((l.beginTurnAt l.now).1.forM (Host.runRegistration loop))
    { s with loops := s.loops.modify loop fun _ => (l.beginTurnAt l.now).2 } [] (.ok ()) s
  rw [hsame, hbegin]
  exact .done () s

end Closing

/-- A run on a loop that has an outcome has evaluated its first flow. If that has not failed, then when
the outcome is known, whatever it is, no callback is left on the loop, and nothing but the closing of the
loop happens afterwards. If it has failed, its failure is the outcome at once, and the callbacks that
were registered before it are left on the loop. -/
theorem runOnLoop_idle {program handlers outcome : Value} {s t : Store}
    (h : Runs Value.apply (runOnLoop program handlers) s (.ok outcome) t) :
    ∃ o u v, Runs Value.apply (begin program handlers (.loopHost s.loops.size) s.completed.size)
        { opened s with completed := s.completed.push [] } o u ∧
      Runs Value.apply (outcomeOnLoop program handlers s.loops.size) (opened s) (.ok outcome) v ∧
      (o = .ok () → (∃ l, v.loops[s.loops.size]? = some l ∧ l.Idle) ∧ t = closed s.loops.size v) ∧
      ∀ f, o = .error f → outcome = captured u f (u.completedAt s.completed.size) ∧
        v.loops = u.loops ∧
        ∃ l, u.loops[s.loops.size]? = some l ∧ l.ready.length + l.timers.size = l.outstanding := by
  cases h with
  | read h =>
  cases hrunning : s.loopIsRunning with
  | true =>
    simp only [hrunning] at h
    cases h
  | false =>
    simp only [hrunning] at h
    cases h with | write h => cases h with | read h => cases h with | write h =>
    change Runs Value.apply ((outcomeOnLoop program handlers s.loops.size).bind _) (opened s) _ t at h
    have howes : (opened s).Owes s.loops.size 0 := Store.owes_withLoop { s with loopIsRunning := true }
    rcases Action.runs_bind_iff.1 h with ⟨x, v, houtcome, h⟩ | ⟨f, hf, -⟩
    · obtain ⟨o, u, hbegin, hturned⟩ := exists_begun howes houtcome
      have hx : x = outcome := by
        rcases Action.runs_bind_iff.1 h with ⟨_, w, -, h⟩ | ⟨f, hf, -⟩
        · cases h with | write h => cases h with | write h => cases h; rfl
        · cases hf
      subst hx
      refine ⟨o, u, v, hbegin, houtcome, ?_, ?_⟩
      · rintro rfl
        obtain ⟨y, w, l, hturning, hl, hidle⟩ := hturned rfl
        obtain ⟨v', hv', hloops⟩ := runs_outcome_of_turning hbegin hturning hl
        obtain ⟨-, rfl⟩ := houtcome.unique hv'
        rw [← hloops] at hl
        exact ⟨⟨l, hl, hidle⟩,
          (h.unique ((traced_closingTurn hl hidle).runs.bind (.write (.write (.done _ _))))).2⟩
      · rintro f rfl
        obtain ⟨v', hv', hloops⟩ := runs_outcome_of_error hbegin
        obtain ⟨houtcome, rfl⟩ := houtcome.unique hv'
        obtain ⟨l, hl, hcount, -⟩ := owes_of_begin howes hbegin
        exact ⟨Except.ok.inj houtcome, hloops, l, hl, hcount.symm⟩
    · cases hf

section Instances

/-- Whether a run has ended with a value. -/
def answers : Option (Ending × Store) → Bool
  | some (.ok _, _) => true
  | _ => false

/-- A flow that parts into two, both of which reach their end on the loop. -/
theorem runOnLoop_idle_fork :
    ∃ outcome t, Runs Value.apply (runOnLoop Suspension.fork (.tuple 0 [])) .empty (.ok outcome) t ∧
      ∃ o u v, Runs Value.apply (begin Suspension.fork (.tuple 0 []) (.loopHost 0) 0)
          { opened .empty with completed := #[[]] } o u ∧
        Runs Value.apply (outcomeOnLoop Suspension.fork (.tuple 0 []) 0) (opened .empty) (.ok outcome) v ∧
        (o = .ok () → (∃ l, v.loops[0]? = some l ∧ l.Idle) ∧ t = closed 0 v) := by
  have hruns : answers (Action.run Value.apply 400 (runOnLoop Suspension.fork (.tuple 0 [])) [] .empty)
      = true := by
    decide +kernel
  unfold answers at hruns
  split at hruns
  · rename_i outcome t hrun
    have h := Action.exists_run_iff.1 ⟨400, hrun⟩
    obtain ⟨o, u, v, hbegin, houtcome, hidle, -⟩ := runOnLoop_idle h
    exact ⟨outcome, t, h, o, u, v, hbegin, houtcome, hidle⟩
  · cases hruns

end Instances

end AlgebraicEffects.Run
