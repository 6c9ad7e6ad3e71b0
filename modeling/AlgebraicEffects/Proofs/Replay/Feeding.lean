import AlgebraicEffects.Proofs.Replay.Coroutine
import AlgebraicEffects.Proofs.Replay.Generators

/-!
A fresh generator that is fed answers.

A generator is started and given one answer after the other, as long as it yields (`Advances`). Feeding it
a whole history comes to one of three ends (`Fate`): it takes all answers and stops at what it has yielded
last, it returns and has received only those until then, or it fails when it is advanced. Main statement:
these are the ends of feeding, and each of them is one (`runs_sent_iff`).
-/

set_option autoImplicit false

namespace AlgebraicEffects

open Action (Runs)

/-- The generator, started and given these answers in order, has yielded each time before the last one,
and has made this progress then. -/
inductive Advances (g : Nat) (s : Store) : List Value → Generator.Progress → Store → Prop where
  | started {p : Generator.Progress} {t : Store} :
      Runs Value.apply (Generator.progress g .nothing) s (.ok p) t → Advances g s [] p t
  | answered {ys : List Value} {x y : Value} {p : Generator.Progress} {t u : Store} :
      Advances g s ys (.yielded x) t → Runs Value.apply (Generator.progress g y) t (.ok p) u →
      Advances g s (ys ++ [y]) p u

/-- Fed the history, the generator is advanced with this answer, if not before the first one, then when it
has received some of them. -/
inductive Asks (g : Nat) (s : Store) (ys : List Value) : Value → Store → Prop where
  | start : Asks g s ys .nothing s
  | next {xs zs : List Value} {x y : Value} {t : Store} :
      ys = xs ++ y :: zs → Advances g s xs (.yielded x) t → Asks g s ys y t

/-- What becomes of a generator that is fed the history. -/
inductive Fate (g : Nat) (s : Store) (ys : List Value) : Except Failure Replay.Fed → Store → Prop where
  | yielded {x : Value} {t : Store} :
      Advances g s ys (.yielded x) t → Fate g s ys (.ok (.yielded x)) t
  | returned {xs zs : List Value} {v : Value} {t : Store} :
      ys = xs ++ zs → Advances g s xs (.returned v) t →
      Fate g s ys (.ok (.returned v xs.length)) t
  | failed {y : Value} {f : Failure} {t u : Store} :
      Asks g s ys y t → Runs Value.apply (Generator.progress g y) t (.error f) u →
      Fate g s ys (.error f) u

namespace Advances

variable {g : Nat} {s t u : Store} {x y v : Value} {ys zs : List Value} {f : Failure}

/-- Feeding more answers goes on where feeding these has come to. -/
theorem feeding (h : Advances g s ys (.yielded x) t) {fed : Except Failure Replay.Fed}
    (hfeed : Runs Value.apply (Replay.feed g x ys.length zs) t fed u) :
    Runs Value.apply (Replay.sent g (ys ++ zs)) s fed u := by
  generalize hp : Generator.Progress.yielded x = p at h
  induction h generalizing x zs fed u with
  | started hstart =>
    subst hp
    exact hstart.bind hfeed
  | @answered ys x' y _ t' t _ hnext ih =>
    subst hp
    rw [List.append_assoc]
    rw [List.length_append] at hfeed
    exact ih (hnext.bind hfeed) rfl

/-- A generator that has taken all answers has stopped at what it has yielded last. -/
theorem sent (h : Advances g s ys (.yielded x) t) :
    Runs Value.apply (Replay.sent g ys) s (.ok (.yielded x)) t := by
  rw [← List.append_nil ys]
  exact h.feeding (.done _ _)

/-- A generator that returns has received the answers until then, and is fed no further. -/
theorem sent_returned (h : Advances g s ys (.returned v) t) (zs : List Value) :
    Runs Value.apply (Replay.sent g (ys ++ zs)) s (.ok (.returned v ys.length)) t := by
  cases h with
  | started hstart => exact hstart.bind (.done _ t)
  | @answered ys x y _ t' _ hbefore hnext =>
    rw [List.append_assoc, List.length_append]
    exact hbefore.feeding (hnext.bind (.done _ t))

end Advances

section Fates

variable {g : Nat} {s t u : Store} {x : Value} {xs ys zs : List Value}
  {fed : Except Failure Replay.Fed}

/-- A generator that fails is fed no further. -/
theorem Asks.sent_failed {y : Value} {f : Failure} (h : Asks g s ys y t)
    (hfails : Runs Value.apply (Generator.progress g y) t (.error f) u) :
    Runs Value.apply (Replay.sent g ys) s (.error f) u := by
  cases h with
  | start => exact hfails.bind_error
  | next hys hbefore =>
    rw [hys]
    exact hbefore.feeding hfails.bind_error

/-- From where a generator has come to, feeding it the rest leads to one of the three ends. -/
theorem Advances.fate_of_feed (h : Advances g s xs (.yielded x) t)
    (hfeed : Runs Value.apply (Replay.feed g x xs.length zs) t fed u) :
    Fate g s (xs ++ zs) fed u := by
  induction zs generalizing xs x t with
  | nil =>
    cases hfeed
    rw [List.append_nil]
    exact .yielded h
  | cons y zs ih =>
    have hsplit : xs ++ y :: zs = (xs ++ [y]) ++ zs := List.append_cons xs y zs
    rcases Action.runs_bind_iff.1 hfeed with ⟨p, w, hnext, hrest⟩ | ⟨f, rfl, hfails⟩
    · cases p with
      | yielded v =>
        rw [hsplit]
        refine ih (h.answered hnext) ?_
        rw [List.length_append]
        exact hrest
      | returned v =>
        cases hrest
        have hlength : (xs ++ [y]).length = xs.length + 1 := List.length_append
        exact hlength ▸ Fate.returned hsplit (h.answered hnext)
    · exact .failed (.next rfl h) hfails

/-- Feeding a history has exactly these ends. -/
theorem runs_sent_iff : Runs Value.apply (Replay.sent g ys) s fed u ↔ Fate g s ys fed u := by
  constructor
  · intro h
    rcases Action.runs_bind_iff.1 h with ⟨p, t, hstart, hrest⟩ | ⟨f, rfl, hfails⟩
    · cases p with
      | yielded v => exact (Advances.started hstart).fate_of_feed hrest
      | returned v =>
        cases hrest
        exact @Fate.returned g s ys [] ys v u rfl (.started hstart)
    · exact .failed .start hfails
  · intro h
    cases h with
    | yielded hadvances => exact hadvances.sent
    | returned hys hadvances =>
      rw [hys]
      exact hadvances.sent_returned _
    | failed hasks hfails => exact hasks.sent_failed hfails

end Fates

end AlgebraicEffects
