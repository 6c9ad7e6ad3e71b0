import AlgebraicEffects.Proofs.Calls
import AlgebraicEffects.Proofs.Queue.Tending

/-!
The count of an agenda.

An agenda counts the tasks that are taken from it and lets none be taken when the count has come to its
limit. That is so whoever takes them: the run of the agenda, or a callback that runs tasks itself.
Whatever is called, the limit stays, the count does not fall, and it never exceeds the limit
(`Counted.of_traced`).
-/

set_option autoImplicit false

namespace AlgebraicEffects

open Action hiding bind_assoc

namespace Agenda

variable {a : Agenda}

theorem atLimit_nothing (h : a.maxSteps = .nothing) : a.atLimit = false := by
  unfold atLimit
  rw [h]
  rfl

/-- An integer limit is reached when as many tasks have been taken. -/
theorem atLimit_int {n : Nat} (h : a.maxSteps = .int n) : a.atLimit = decide (n ≤ a.steps) := by
  have hlimit : a.atLimit =
      ((Number.int n).less (.int a.steps) || (Number.int n).equal (.int a.steps)) := by
    unfold atLimit
    rw [h]
    rfl
  rw [hlimit, Number.less, Number.equal, Number.compare?_int]
  rcases Nat.lt_trichotomy n a.steps with hlt | heq | hgt
  · rw [compare_lt_iff_lt.2 (Int.ofNat_lt.2 hlt), decide_eq_true hlt.le]
    rfl
  · rw [heq, compare_eq_iff_eq.2 rfl, decide_eq_true le_rfl]
    rfl
  · rw [compare_gt_iff_gt.2 (Int.ofNat_lt.2 hgt), decide_eq_false (Nat.not_le.2 hgt)]
    rfl

end Agenda

/-- What has become of the agenda at an address keeps its limit and its count: the count does not fall,
and where it was within an integer limit it still is. -/
def Store.Counts (address : Nat) (s t : Store) : Prop :=
  ∀ a, s.agendas[address]? = some a → ∃ b, t.agendas[address]? = some b ∧ b.maxSteps = a.maxSteps ∧
    a.steps ≤ b.steps ∧ ∀ n : Nat, a.maxSteps = .int n → a.steps ≤ n → b.steps ≤ n

namespace Store.Counts

variable {address : Nat} {s t u : Store}

theorem of_eq (h : t.agendas[address]? = s.agendas[address]?) : s.Counts address t :=
  fun a ha => ⟨a, h.trans ha, rfl, le_rfl, fun _ _ h => h⟩

theorem refl (s : Store) : s.Counts address s := of_eq rfl

theorem trans (h : s.Counts address t) (g : t.Counts address u) : s.Counts address u := by
  intro a ha
  obtain ⟨b, hb, hlimit, hle, hwithin⟩ := h a ha
  obtain ⟨c, hc, hlimit', hle', hwithin'⟩ := g b hb
  exact ⟨c, hc, hlimit'.trans hlimit, hle.trans hle', fun n hn ha =>
    hwithin' n (hlimit.trans hn) (hwithin n hn ha)⟩

end Store.Counts

/-- Along every run of the action from a store, the agenda at the address counts its tasks. Nothing is
asked of what is called. -/
inductive Counted (address : Nat) : {α : Type} → Action α → Store → Prop where
  | done {α : Type} (x : α) (s : Store) : Counted address (.done x) s
  | fail {α : Type} (f : Failure) (s : Store) : Counted address (.fail f : Action α) s
  | read {α : Type} {k : Store → Action α} {s : Store} :
      Counted address (k s) s → Counted address (.read k) s
  | write {α : Type} {change : Store → Store} {k : Action α} {s : Store} :
      s.Counts address (change s) → Counted address k (change s) → Counted address (.write change k) s
  | call {α : Type} {f : Value} {arguments : Arguments Value} {k : Ending → Action α} {s : Store} :
      (∀ o t, Counted address (k o) t) → Counted address (.call f arguments k) s

namespace Counted

variable {address : Nat} {α β : Type} {s : Store}

theorem bind {a : Action α} {k : α → Action β} (h : Counted address a s)
    (hk : ∀ x t, Counted address (k x) t) : Counted address (a.bind k) s := by
  induction h with
  | done x s => exact hk x s
  | fail f s => exact .fail f s
  | read _ ih => exact .read ih
  | write hc _ ih => exact .write hc ih
  | call _ ih => exact .call ih

theorem attempt {a : Action α} (h : Counted address a s) : Counted address a.attempt s := by
  induction h with
  | done x s => exact .done _ s
  | fail f s => exact .done _ s
  | read _ ih => exact .read ih
  | write hc _ ih => exact .write hc ih
  | call _ ih => exact .call ih

end Counted

section Counting

variable {address : Nat} {α : Type}

instance attends_counted : Attends (Counted address) where
  done := .done
  fail := .fail
  read := .read
  aside h := .write (.of_eq (congrArg (·[address]?) h))
  call := .call
  bind := .bind
  attempt := .attempt

/-- Putting back an agenda with its limit, and with a count that has risen below the limit if at all. -/
theorem counts_setAgenda {index : Nat} {a b : Agenda} {s : Store} (ha : s.agendas[index]? = some a)
    (hlimit : b.maxSteps = a.maxSteps) (hle : a.steps ≤ b.steps)
    (hwithin : ∀ n : Nat, a.maxSteps = .int n → a.steps ≤ n → b.steps ≤ n) :
    s.Counts address { s with agendas := s.agendas.setIfInBounds index b } := by
  obtain ⟨hset, hother⟩ := getElem?_setAgenda address b ha
  by_cases haddress : index = address
  · subst haddress
    intro c hc
    obtain rfl : a = c := Option.some.inj (ha.symm.trans hc)
    exact ⟨b, hset, hlimit, hle, hwithin⟩
  · exact .of_eq (hother haddress)

/-- A task is taken below the limit only. -/
theorem counted_step (index : Nat) (s : Store) : Counted address (Host.step index) s := by
  unfold Host.step
  refine Attends.of_agendaAt (T := Counted address) fun a ha => ?_
  cases hpop : a.pop? with
  | none => exact .done _ s
  | some found =>
    obtain ⟨task, next⟩ := found
    obtain ⟨queue, -, rfl⟩ := Agenda.exists_of_pop hpop
    cases hlimit : a.atLimit with
    | true =>
      simp only [if_true]
      exact Counted.bind (follows_limitReached (P := Throughout (Counted address)) a.maxSteps s)
        fun f t => .fail f t
    | false =>
      simp only [if_false, Bool.false_eq_true]
      have hcalled : Follows (Throughout (Counted address)) (do
          let due ← Action.shown task.dueTime
          Host.debug ("running task #" ++ toString task.sequence ++ " at t=" ++ due.plain)
          let _ ← Action.ask task.callback task.arguments
          return true) := by
        grind
      refine .write (counts_setAgenda ha rfl (Nat.le_succ _) fun n hn _ => ?_) (hcalled _)
      rw [Agenda.atLimit_int hn, decide_eq_false_iff_not, not_le] at hlimit
      exact hlimit

instance discipline_counted : AgendaDiscipline (Counted address) where
  newAgenda _ _ _ := Attends.of_newAgenda (T := Counted address) fun _ _ =>
    .write (fun b hb => ⟨b, getElem?_addAgenda _ hb, rfl, le_rfl, fun _ _ h => h⟩) (.done _ _)
  callLaterOnAgenda _ _ _ _ _ :=
    Attends.of_callLaterOnAgenda (T := Counted address) fun _ _ _ _ _ _ _ ha _ _ _ hk =>
      .write (counts_setAgenda ha rfl le_rfl fun _ _ h => h) (hk _)
  step := counted_step

/-- Whatever runs, the agenda counts its tasks. -/
theorem Counted.of_traced {a : Action α} {s t : Store} {cs : List Call} {r : Except Failure α}
    (h : Traced a s cs r t) (ha : Counted address a s) : s.Counts address t := by
  induction h with
  | done | fail => exact .refl _
  | read _ ih => cases ha with | read ha => exact ih ha
  | write _ ih => cases ha with | write hc ha => exact hc.trans (ih ha)
  | call _ _ ihbody ih =>
    cases ha with
    | call ha => exact (ihbody (Value.follows_apply (P := Throughout (Counted address)) _ _ _)).trans (ih (ha _ _))

end Counting

end AlgebraicEffects
