import AlgebraicEffects.Effects.Suspension
import AlgebraicEffects.Proofs.Listening
import AlgebraicEffects.Proofs.Shapes

/-!
Programs that wait, fork and exit.

A plan says how a program goes on in time: it ends with a value, exits, waits, or forks into two flows.
Read as a tree, with a fork as a choice of two branches, an exit as a dead end and a wait as an
operation whose answer is nothing, it has leaves (`Plan.leaves`), and each of them is reached at a time
(`Plan.finishes`). A program goes by a plan when its continuations, resumed in any world from now on,
come to the parts of the plan, and leave the agendas and results alone that are there (`Goes`).
Sequencing programs sequences their plans (`Goes.graft`).
-/

set_option autoImplicit false

namespace AlgebraicEffects

open Action (Traced)
open Suspension (suspendName)

/-- The time after a delay. -/
def Number.after (now delay : Number) : Number := (now.add delay).toOption.getD now

inductive Plan (V : Type) where
  | leaf (v : V)
  | exit
  | wait (delay : Number) (rest : Plan V)
  | fork (whenTrue whenFalse : Plan V)

namespace Plan

variable {V : Type}

/-- The values at the ends of the flows that do not exit. -/
def leaves : Plan V → List V
  | leaf v => [v]
  | exit => []
  | wait _ rest => rest.leaves
  | fork t f => t.leaves ++ f.leaves

/-- When a plan is begun, these values are reached at these times. The flow that goes on with true
is called from the queue, as soon as possible. -/
def finishes : Plan V → Number → List (Number × V)
  | leaf v, now => [(now, v)]
  | exit, _ => []
  | wait delay rest, now => rest.finishes (now.after delay)
  | fork t f, now => t.finishes (now.after (.float 0)) ++ f.finishes now

/-- The delays of all waits. -/
def delays : Plan V → List Number
  | leaf _ => []
  | exit => []
  | wait delay rest => delay :: rest.delays
  | fork t f => t.delays ++ f.delays

def size : Plan V → Nat
  | leaf _ => 1
  | exit => 1
  | wait _ rest => rest.size + 1
  | fork t f => t.size + f.size + 1

/-- What is planned for each of the values. -/
def bind {W : Type} : Plan V → (V → Plan W) → Plan W
  | leaf v, next => next v
  | exit, _ => exit
  | wait delay rest, next => wait delay (rest.bind next)
  | fork t f, next => fork (t.bind next) (f.bind next)

theorem map_finishes (p : Plan V) (now : Number) : (p.finishes now).map Prod.snd = p.leaves := by
  induction p generalizing now with
  | leaf v => rfl
  | exit => rfl
  | wait delay rest ih => exact ih _
  | fork t f iht ihf => rw [finishes, List.map_append, iht, ihf, leaves]

end Plan

/-- The agendas and the results of runs that are there stay as they are. Others may be added. -/
structure Store.Spares (s t : Store) : Prop where
  agendas {i : Nat} {a : Agenda} : s.agendas[i]? = some a → t.agendas[i]? = some a
  completed {i : Nat} {vs : List Value} : s.completed[i]? = some vs → t.completed[i]? = some vs

theorem Store.Spares.refl (s : Store) : s.Spares s := ⟨id, id⟩

theorem Store.Spares.trans {s t u : Store} (h : s.Spares t) (g : t.Spares u) : s.Spares u :=
  ⟨fun ha => g.agendas (h.agendas ha), fun hv => g.completed (h.completed hv)⟩

variable {V : Type} {S : Scene V}

/-- The same course as far as agendas and results of runs are spared. -/
def Course.sparing (C : Course S) : Course S where
  Later w u := C.Later w u ∧ (S.store w).Spares (S.store u)
  refl w := ⟨C.refl w, .refl _⟩
  trans h g := ⟨C.trans h.1 g.1, h.2.trans g.2⟩
  known h := C.known h.1
  fit h := C.fit h.1
  identified w v := by
    obtain ⟨u, hu, hstore, hknown⟩ := C.identified w v
    obtain ⟨n, -, htags⟩ := (S.store w).identify_snd v
    refine ⟨u, ⟨hu, ?_⟩, hstore, hknown⟩
    rw [hstore, htags]
    exact ⟨id, id⟩
  identifiedAll w call := by
    obtain ⟨u, hu, hstore⟩ := C.identifiedAll w call
    obtain ⟨n, -, htags⟩ := (S.store w).identifyAll_snd call
    refine ⟨u, ⟨hu, ?_⟩, hstore⟩
    rw [hstore, htags]
    exact ⟨id, id⟩

/-- What a run has ended as goes by this plan, in all worlds from now on. -/
def Goes (C : Course S) : Plan V → S.World → Ending → Prop
  | .leaf v, w, e => S.Shows w e (.leaf v)
  | .exit, _, e => ∃ tag own resume,
      e = .ok (.operation tag suspendName [.function own .exitStart] resume)
  | .wait d p, w, e => ∃ tag own x resume,
      e = .ok (.operation tag suspendName [.function own (.waitStart x)] resume) ∧
      x.number? = some d ∧
      ∀ u, C.Later w u → Ends C.sparing (Action.ask resume [.nothing]) u (Goes C p)
  | .fork t f, w, e => ∃ tag own resume,
      e = .ok (.operation tag suspendName [.function own .forkStart] resume) ∧
      (∀ u, C.Later w u → Ends C.sparing (Action.ask resume [.bool true]) u (Goes C t)) ∧
      ∀ u, C.Later w u → Ends C.sparing (Action.ask resume [.bool false]) u (Goes C f)

/-- In all worlds from now on the continuation, resumed with this answer, goes by this plan. -/
def Continues (C : Course S) (p : Plan V) (resume answer : Value) (w : S.World) : Prop :=
  ∀ u, C.Later w u → Ends C.sparing (Action.ask resume [answer]) u (Goes C p)

section Rules

variable {C : Course S} {p : Plan V} {w u : S.World} {e : Ending}

theorem Goes.exists_ok (h : Goes C p w e) : ∃ v, e = .ok v := by
  cases p with
  | leaf v =>
    cases h
    exact ⟨_, rfl⟩
  | exit =>
    obtain ⟨tag, own, resume, rfl⟩ := h
    exact ⟨_, rfl⟩
  | wait d p =>
    obtain ⟨tag, own, x, resume, rfl, -⟩ := h
    exact ⟨_, rfl⟩
  | fork t f =>
    obtain ⟨tag, own, resume, rfl, -⟩ := h
    exact ⟨_, rfl⟩

theorem Goes.later (h : Goes C p w e) (hu : C.Later w u) : Goes C p u e := by
  cases p with
  | leaf v => exact C.shows hu h
  | exit => exact h
  | wait d p =>
    obtain ⟨tag, own, x, resume, he, hx, hresume⟩ := h
    exact ⟨tag, own, x, resume, he, hx, fun z hz => hresume z (C.trans hu hz)⟩
  | fork t f =>
    obtain ⟨tag, own, resume, he, htrue, hfalse⟩ := h
    exact ⟨tag, own, resume, he, fun z hz => htrue z (C.trans hu hz),
      fun z hz => hfalse z (C.trans hu hz)⟩

/-- A program for its value makes no difference. -/
theorem Goes.lifted {v : Value} (h : Goes C p w (.ok v)) : Goes C p w (.ok (Program.lift v)) := by
  rcases Replay.lift_cases v with ⟨tag, name, params, resume, rfl⟩ | ⟨tag, x, hv⟩
  · exact h
  · rw [hv]
    cases p with
    | leaf v =>
      cases h with
      | leaf hx hfit =>
        rw [hv] at hx
        cases hx
        exact .leaf rfl hfit
    | exit =>
      obtain ⟨_, _, _, he⟩ := h
      cases he
      cases hv
    | wait d p =>
      obtain ⟨_, _, _, _, he, -⟩ := h
      cases he
      cases hv
    | fork t f =>
      obtain ⟨_, _, _, he, -⟩ := h
      cases he
      cases hv

/-- Sequencing programs sequences their plans. -/
theorem Goes.graft {v next : Value} {d : V → Plan V} (h : Goes C p w (.ok v))
    (hcallable : next.isCallable = true)
    (hnext : ∀ u x, C.Later w u → S.Fit u x → S.see x ∈ p.leaves →
      Ends C.sparing (Action.ask next [x]) u (Goes C (d (S.see x)))) :
    Ends C.sparing (Program.graft v next) w (Goes C (p.bind d)) := by
  have hresumes {p q : Plan V} {resume answer : Value} {w u : S.World}
      (hresume : Continues C p resume answer w) (hu : C.Later w u)
      (ih : ∀ z v, Goes C p z (.ok v) → C.Later w z →
        Ends C.sparing (Program.graft v next) z (Goes C q)) :
      Ends C.sparing (Action.ask (.arrowOf (.grafted resume next)) [answer]) u (Goes C q) := by
    refine .ask rfl (.bind_silent ((hresume u hu).mono fun z e hz hp => ?_))
    obtain ⟨v, rfl⟩ := hp.exists_ok
    exact ⟨v, rfl, ih z v hp (C.trans hu hz.1)⟩
  induction p generalizing w v with
  | leaf l =>
    cases h with
    | leaf hlift hfit =>
      have hled := hnext w _ (C.refl w) hfit (List.mem_singleton_self _)
      refine .graft_of_leaf hlift hcallable (hled.mono fun z e _ hd => ?_)
      obtain ⟨q, rfl⟩ := hd.exists_ok
      exact ⟨q, rfl, hd.lifted⟩
  | exit =>
    obtain ⟨tag, own, resume, he⟩ := h
    cases he
    rw [graft_operation hcallable]
    exact .done ⟨_, _, _, rfl⟩
  | wait delay p ih =>
    obtain ⟨tag, own, x, resume, he, hx, hresume⟩ := h
    cases he
    rw [graft_operation hcallable]
    refine .done ⟨_, _, _, _, rfl, hx, fun u hu => hresumes hresume hu fun z v hp hz => ?_⟩
    exact ih hp fun u x hu => hnext u x (C.trans hz hu)
  | fork t f iht ihf =>
    obtain ⟨tag, own, resume, he, htrue, hfalse⟩ := h
    cases he
    rw [graft_operation hcallable]
    refine .done ⟨_, _, _, rfl, fun u hu => hresumes htrue hu fun z v hp hz => ?_,
      fun u hu => hresumes hfalse hu fun z v hp hz => ?_⟩
    · exact iht hp fun u x hu hfit hx =>
        hnext u x (C.trans hz hu) hfit (List.mem_append_left _ hx)
    · exact ihf hp fun u x hu hfit hx =>
        hnext u x (C.trans hz hu) hfit (List.mem_append_right _ hx)

/-- A suspension that is followed by a function goes on with what the function gives. -/
theorem continues_grafted {next answer : Value} (hcallable : next.isCallable = true)
    (hnext : ∀ u, C.Later w u → Ends C.sparing (Action.ask next [answer]) u (Goes C p)) :
    Continues C p (.arrowOf (.grafted (.arrowOf .leaf) next)) answer w := by
  intro u hu
  refine .ask rfl (.bind_silent (.ask rfl (.done ⟨_, rfl, .graft_of_leaf rfl hcallable ?_⟩)))
  refine (hnext u hu).mono fun z e _ h => ?_
  obtain ⟨v, rfl⟩ := h.exists_ok
  exact ⟨v, rfl, h.lifted⟩

end Rules

end AlgebraicEffects
