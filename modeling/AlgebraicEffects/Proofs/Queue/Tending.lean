import AlgebraicEffects.Proofs.Discipline.Agendas
import AlgebraicEffects.Proofs.Discipline.Calls
import AlgebraicEffects.Proofs.Queue.Agenda

/-!
Agendas are tended.

Whatever is called, an agenda changes only in that tasks are scheduled and that the next task is taken,
and a task that was taken is called at once, with its arguments, before anything else is called. This is
a discipline, so every call follows it (`tends_apply`).
-/

set_option autoImplicit false

namespace AlgebraicEffects

open Action hiding bind_assoc

/-- What happens to the agenda at an address, if there is one, when a store becomes another one. -/
inductive Store.Becomes (address : Nat) (s : Store) : List Happening → Store → Prop where
  | absent {t : Store} : s.agendas[address]? = none → Becomes address s [] t
  | present {t : Store} {a b : Agenda} {happenings : List Happening} :
      s.agendas[address]? = some a → t.agendas[address]? = some b → a.Becomes happenings b →
      Becomes address s happenings t

/-- Along every run of the action from a store, the agenda at the address is only scheduled to and
taken from, and a task that was taken is called at once. A task that is due to be called is carried
along. Nothing is asked of what is called. -/
inductive Tended (address : Nat) : {α : Type} → Option Task → Action α → Store → Prop where
  | done {α : Type} (x : α) (s : Store) : Tended address none (.done x) s
  | fail {α : Type} (f : Failure) (s : Store) : Tended address none (.fail f : Action α) s
  | read {α : Type} {due : Option Task} {k : Store → Action α} {s : Store} :
      Tended address due (k s) s → Tended address due (.read k) s
  | aside {α : Type} {due : Option Task} {change : Store → Store} {k : Action α} {s : Store} :
      s.Becomes address [] (change s) → Tended address due k (change s) →
      Tended address due (.write change k) s
  | schedule {α : Type} {delay : Number} {task : Task} {change : Store → Store} {k : Action α}
      {s : Store} :
      s.Becomes address [.scheduled delay task] (change s) → Tended address none k (change s) →
      Tended address none (.write change k) s
  | take {α : Type} {task : Task} {change : Store → Store} {k : Action α} {s : Store} :
      s.Becomes address [.taken task] (change s) → Tended address (some task) k (change s) →
      Tended address none (.write change k) s
  | call {α : Type} {f : Value} {arguments : Arguments Value} {k : Ending → Action α} {s : Store} :
      (∀ o t, Tended address none (k o) t) → Tended address none (.call f arguments k) s
  | execute {α : Type} {task : Task} {k : Ending → Action α} {s : Store} :
      (∀ o t, Tended address none (k o) t) →
      Tended address (some task) (.call task.callback (.of task.arguments) k) s

namespace Tended

variable {address : Nat} {α β : Type} {due : Option Task} {s : Store}

theorem bind {a : Action α} {k : α → Action β} (h : Tended address due a s)
    (hk : ∀ x t, Tended address none (k x) t) : Tended address due (a.bind k) s := by
  induction h with
  | done x s => exact hk x s
  | fail f s => exact .fail f s
  | read _ ih => exact .read ih
  | aside hc _ ih => exact .aside hc ih
  | schedule hc _ ih => exact .schedule hc ih
  | take hc _ ih => exact .take hc ih
  | call _ ih => exact .call ih
  | execute _ ih => exact .execute ih

theorem attempt {a : Action α} (h : Tended address due a s) : Tended address due a.attempt s := by
  induction h with
  | done x s => exact .done _ s
  | fail f s => exact .done _ s
  | read _ ih => exact .read ih
  | aside hc _ ih => exact .aside hc ih
  | schedule hc _ ih => exact .schedule hc ih
  | take hc _ ih => exact .take hc ih
  | call _ ih => exact .call ih
  | execute _ ih => exact .execute ih

end Tended

/-- The action tends the agenda at the address, whatever store it begins in. -/
def Tends (address : Nat) {α : Type} (a : Action α) : Prop := ∀ s, Tended address none a s

theorem Store.becomes_of_eq {address : Nat} {s t : Store}
    (h : t.agendas[address]? = s.agendas[address]?) : s.Becomes address [] t := by
  cases ha : s.agendas[address]? with
  | none => exact .absent ha
  | some a => exact .present ha (h.trans ha) .same

section Composing

variable {address : Nat}

instance attends_tended : Attends (Tended address none) where
  done := .done
  fail := .fail
  read := .read
  aside h := .aside (Store.becomes_of_eq (congrArg (·[address]?) h))
  call := .call
  bind := .bind
  attempt := .attempt

instance composes_tends : Composes (Tends address) :=
  inferInstanceAs (Composes (Throughout (Tended address none)))

end Composing

section Hosts

variable {address : Nat}

theorem tended_callLaterOnAgenda (index : Nat) (delay callback : Value) (arguments : List Value)
    (s : Store) : Tended address none (Host.callLaterOnAgenda index delay callback arguments) s := by
  refine Attends.of_callLaterOnAgenda (T := Tended address none)
    fun a now n time timeTag t k ha hnow hpositive htime hk => ?_
  obtain ⟨hset, hother⟩ := getElem?_setAgenda address (a.schedule time timeTag callback arguments) ha
  by_cases haddress : index = address
  · subst haddress
    exact .schedule (.present ha hset (.scheduled hnow hpositive htime)) (hk _)
  · exact .aside (Store.becomes_of_eq (hother haddress)) (hk _)

theorem tended_step (index : Nat) (s : Store) : Tended address none (Host.step index) s := by
  unfold Host.step
  refine Attends.of_agendaAt (T := Tended address none) fun a ha => ?_
  cases hpop : a.pop? with
  | none => exact .done _ s
  | some found =>
    obtain ⟨task, next⟩ := found
    by_cases hlimit : a.atLimit = true
    · simp only [hlimit, if_true]
      exact Tended.bind (follows_limitReached (P := Tends address) a.maxSteps s) fun f t => .fail f t
    · simp only [hlimit, if_false, Bool.false_eq_true]
      obtain ⟨hset, hother⟩ := getElem?_setAgenda address next ha
      by_cases haddress : index = address
      · subst haddress
        refine .take (.present ha hset (.taken hpop)) (.read (.aside (Store.becomes_of_eq rfl) ?_))
        refine .execute fun o t => ?_
        cases o with
        | ok v => exact .done true t
        | error f => exact .fail f t
      · have hrest : Follows (Tends address) (do
            let due ← Action.shown task.dueTime
            Host.debug ("running task #" ++ toString task.sequence ++ " at t=" ++ due.plain)
            let _ ← Action.ask task.callback task.arguments
            return true) := by
          grind
        exact .aside (Store.becomes_of_eq (hother haddress)) (hrest _)

/-- Nothing happens to an agenda when a new one is made. -/
theorem becomes_addAgenda (a : Agenda) (s : Store) :
    s.Becomes address [] { s with agendas := s.agendas.push a } := by
  cases hs : s.agendas[address]? with
  | none => exact .absent hs
  | some b => exact .present hs (getElem?_addAgenda a hs) .same

instance discipline_tended : AgendaDiscipline (Tended address none) where
  newAgenda _ _ _ := Attends.of_newAgenda (T := Tended address none) fun _ t =>
    .aside (becomes_addAgenda _ t) (.done _ _)
  callLaterOnAgenda := tended_callLaterOnAgenda
  step := tended_step

instance discipline_tends : Discipline (Tends address) :=
  inferInstanceAs (Discipline (Throughout (Tended address none)))

/-- Whatever is called tends every agenda. -/
theorem tends_apply (address : Nat) (f : Value) (arguments : Arguments Value) :
    Tends address (f.apply arguments) :=
  Value.follows_apply (P := Tends address) f arguments

end Hosts

end AlgebraicEffects
