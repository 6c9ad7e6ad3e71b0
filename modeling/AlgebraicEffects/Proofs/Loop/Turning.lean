import AlgebraicEffects.Proofs.Calls
import AlgebraicEffects.Proofs.Loop.Counting

/-!
Turns of a loop do not fail, and they go on until nothing is left.

Whatever a callback does, its failure is kept by the loop. So turns of a loop that counts what waits in
it come to an end in one way only, and then nothing is outstanding and nothing waits any more
(`idle_of_traced_turning`).
-/

set_option autoImplicit false

namespace AlgebraicEffects

open Action

/-- Nothing waits in the loop, and nothing is outstanding. -/
structure EventLoop.Idle (l : EventLoop) : Prop where
  ready : l.ready = []
  timers : l.timers.size = 0
  outstanding : l.outstanding = 0

theorem EventLoop.idle_of_isIdle {l : EventLoop} (hcount : l.outstanding = l.queued)
    (hsignals : l.Signals) (h : l.isIdle = true) : l.Idle := by
  have hzero := hsignals.1 h
  unfold EventLoop.counted at hzero
  unfold EventLoop.queued at hcount
  exact ⟨List.eq_nil_of_length_eq_zero (by omega), by omega, by omega⟩

/-- A turn of an idle loop takes nothing and changes nothing. -/
theorem EventLoop.Idle.beginTurnAt_now {l : EventLoop} (h : l.Idle) :
    l.beginTurnAt l.now = ([], l) := by
  obtain ⟨now, ready, timers, counter, outstanding, failure, isClosed, refused, isIdle⟩ := l
  obtain rfl : ready = [] := h.ready
  have htimers : timers.size = 0 := h.timers
  unfold beginTurnAt
  simp only [htimers, takeDue, List.nil_append]

section Failing

variable {address : Nat} {s t : Store} {α : Type} {r : Except Failure Unit}

theorem ok_of_runs_identify {v : Value} {q : Ending} (h : Runs Value.apply (identify v) s q t) :
    ∃ w, q = .ok w := by
  unfold identify at h
  split at h
  · cases h
    exact ⟨_, rfl⟩
  · cases h with | read h => cases h with | write h => cases h; exact ⟨_, rfl⟩

/-- If the callback of a registration fails, the loop keeps the failure. -/
theorem ok_of_runs_registration {registration : Registration} {l : EventLoop}
    (hl : s.loops[address]? = some l)
    (h : Runs Value.apply (Host.runRegistration address registration) s r t) : r = .ok () := by
  unfold Host.runRegistration at h
  cases h with
  | read h =>
  simp only [hl, Action.bind] at h
  cases hfailure : l.failure with
  | some f =>
    rw [hfailure] at h
    cases h with | write h => cases h; rfl
  | none =>
    rw [hfailure] at h
    cases h with
    | @call _ _ _ _ _ _ _ o _ _ h =>
    cases o with
    | ok v => cases h with | write h => cases h; rfl
    | error f =>
      change Runs Value.apply (Action.bind (caught f) _) _ r t at h
      rcases runs_bind_iff.1 h with ⟨g, u, -, h⟩ | ⟨g, -, hcaught⟩
      · cases h with | read h => cases h with | write h => cases h with | write h => cases h; rfl
      · rcases runs_bind_iff.1 hcaught with ⟨v, u, -, h⟩ | ⟨e, -, hidentify⟩
        · cases v <;> cases h
        · obtain ⟨w, hw⟩ := ok_of_runs_identify hidentify
          cases hw

/-- The registrations of a turn that are still to be run are counted beside those that wait. -/
theorem ok_of_runs_forM {rs : List Registration} {n : Nat} (ho : s.Owes address (n + rs.length))
    (h : Runs Value.apply (rs.forM (Host.runRegistration address)) s r t) : r = .ok () := by
  induction rs generalizing s with
  | nil => cases h; rfl
  | cons registration rs ih =>
    obtain ⟨l, hl, -⟩ := id ho
    rcases runs_bind_iff.1 h with ⟨x, u, hfirst, hrest⟩ | ⟨f, -, hfirst⟩
    · have hrepays : Repays address 1 (Host.runRegistration address registration) s := by
        have hk : Repays address 1
            (Host.runRegistration address registration >>= fun _ => Action.done ()) s :=
          repays_runRegistration registration fun t => .done () t
        rwa [show (Host.runRegistration address registration >>= fun _ => Action.done ()) =
          Host.runRegistration address registration from bind_pure _] at hk
      exact ih (hrepays.of_runs hfirst ho) hrest
    · cases ok_of_runs_registration hl hfirst

theorem ok_of_runs_turn (ho : s.Owes address 0) (h : Runs Value.apply (Host.turn address) s r t) :
    r = .ok () := by
  obtain ⟨l, hl, hcount, hsignals, hsized⟩ := ho
  cases h with
  | read h =>
  simp only [hl] at h
  cases h with
  | write h =>
  refine ok_of_runs_forM (n := 0) ⟨l.beginTurn.2, ?_, ?_, hsignals, l.sized_beginTurnAt hsized l.advanced⟩ h
  · simp only [Array.getElem?_modify, if_true, hl, Option.map_some]
  · have hwaiting := l.queued_beginTurnAt l.advanced
    have houtstanding : l.beginTurn.2.outstanding = l.outstanding := rfl
    unfold EventLoop.beginTurn at houtstanding ⊢
    omega

/-- Turns of a loop end without failing, and then the loop is idle. -/
theorem idle_of_traced_turning {cs : List Call} {q : Ending} (ho : s.Owes address 0)
    (h : Traced (Host.turningBody address) s cs q t) :
    q = .ok .nothing ∧ ∃ l, t.loops[address]? = some l ∧ l.Idle := by
  -- All turns but the first are a call inside the run, which has fewer calls.
  induction hweight : weight cs using Nat.strongRecOn generalizing s cs with
  | _ _ ih =>
    obtain ⟨l, hl, hcount, hsignals, -⟩ := id ho
    cases h with
    | read h =>
    simp only [hl] at h
    change Traced (if l.isIdle = true then pure Value.nothing else _) s cs q t at h
    by_cases hidle : l.isIdle = true
    · rw [if_pos hidle] at h
      cases h
      exact ⟨rfl, l, hl, l.idle_of_isIdle hcount hsignals hidle⟩
    · rw [if_neg hidle] at h
      rcases runs_bind_iff.1 h.runs with ⟨x, u, hturn, -⟩ | ⟨f, -, hturn⟩
      · have howes := ho.of_runs (balances_turn address) hturn
        obtain ⟨ds, hturn⟩ := hturn.exists_traced
        obtain ⟨es, rfl, hrest⟩ := h.of_bind hturn
        obtain ⟨inner, rfl, hinner⟩ := hrest.of_invoke
        refine ih _ ?_ howes hinner rfl
        rw [← hweight, weight_append, weight_singleton]
        omega
      · cases ok_of_runs_turn ho hturn

end Failing

end AlgebraicEffects
