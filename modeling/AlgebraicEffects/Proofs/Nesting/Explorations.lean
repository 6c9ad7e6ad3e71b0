import AlgebraicEffects.Proofs.Listening
import AlgebraicEffects.Proofs.Shapes

/-!
Programs that search with a state.

An exploration is what a program over choice and state may do: it ends at leaves and at failures, it
decides, and it reads and replaces a state. It is read in two ways. Every path may have a state of its
own (`Exploration.locally`), or one state may run through all paths in order (`Exploration.shared`).

Two rewritings of explorations go before them. One threads a state through every path and leaves the
decisions (`threaded`), and one lists the leaves of all paths and leaves what is done to the state
(`enumerated`). Either of them takes what the other has left to an end, and the two orders are the two
readings (`enumerated_threaded`, `threaded_enumerated`).

A program explores when its continuations, resumed in any world from now on and any number of times,
come to the parts of the exploration (`Explores`).
-/

set_option autoImplicit false

namespace AlgebraicEffects

open Choice (decideName failName)
open State (getName putName)

/-- What a program does that decides, fails, reads a state and replaces it. Nothing is said of the
program where the exploration is unknown, as below a state that it does not expect. -/
inductive Exploration (V A : Type) where
  | leaf (a : A)
  | fail
  | unknown
  | decide (whenTrue whenFalse : Exploration V A)
  | get (next : V → Exploration V A)
  | put (s : V) (rest : Exploration V A)

namespace Exploration

variable {V A B : Type}

/-- The leaves, true in front, each with its state. Every path has a state of its own: the one that
the decision was reached in, for both branches. -/
def locally : Exploration V A → V → Option (List (A × V))
  | leaf a, s => some [(a, s)]
  | fail, _ => some []
  | unknown, _ => none
  | decide t f, s => (t.locally s).bind fun xs => (f.locally s).map fun ys => xs ++ ys
  | get next, s => (next s).locally s
  | put s rest, _ => rest.locally s

/-- The leaves, true in front, and a state at the end. There is one state: the branch of false starts
from the state that the branch of true has left, whether that one has failed or not. -/
def shared : Exploration V A → V → Option (List A × V)
  | leaf a, s => some ([a], s)
  | fail, s => some ([], s)
  | unknown, _ => none
  | decide t f, s =>
    (t.shared s).bind fun first => (f.shared first.2).map fun second =>
      (first.1 ++ second.1, second.2)
  | get next, s => (next s).shared s
  | put s rest, _ => rest.shared s

/-- The exploration with explorations in the place of its leaves. -/
def bind (d : A → Exploration V B) : Exploration V A → Exploration V B
  | leaf a => d a
  | fail => fail
  | unknown => unknown
  | decide t f => decide (t.bind d) (f.bind d)
  | get next => get fun s => (next s).bind d
  | put s rest => put s (rest.bind d)

/-- The decisions that are left when every path is run from a state, with the states at the leaves. -/
def threaded : Exploration V A → V → Exploration V (A × V)
  | leaf a, s => leaf (a, s)
  | fail, _ => fail
  | unknown, _ => unknown
  | decide t f, s => decide (t.threaded s) (f.threaded s)
  | get next, s => (next s).threaded s
  | put s rest, _ => rest.threaded s

/-- What is left to be done to the state when both answers of every decision are followed. -/
def enumerated : Exploration V A → Exploration V (List A)
  | leaf a => leaf [a]
  | fail => leaf []
  | unknown => unknown
  | decide t f => t.enumerated.bind fun xs => f.enumerated.bind fun ys => leaf (xs ++ ys)
  | get next => get fun s => (next s).enumerated
  | put s rest => put s rest.enumerated

theorem threaded_bind (c : Exploration V A) (d : A → Exploration V B) (s : V) :
    (c.bind d).threaded s = (c.threaded s).bind fun found => (d found.1).threaded found.2 := by
  induction c generalizing s with
  | leaf a => rfl
  | fail => rfl
  | unknown => rfl
  | decide t f iht ihf => simp only [bind, threaded, iht, ihf]
  | get next ih => exact ih s s
  | put r rest ih => exact ih r

theorem leaf_ne_unknown (a : A) : (leaf a : Exploration V A) ≠ unknown := by
  rintro ⟨⟩

/-- What is known behind a sequence is known of its first part. -/
theorem ne_unknown_of_bind {c : Exploration V A} {d : A → Exploration V B}
    (h : c.bind d ≠ unknown) : c ≠ unknown := by
  rintro rfl
  exact h rfl

theorem ne_unknown_of_threaded {c : Exploration V A} {s : V} (h : c.threaded s ≠ unknown) :
    c ≠ unknown := by
  rintro rfl
  exact h rfl

theorem ne_unknown_of_enumerated {c : Exploration V A} (h : c.enumerated ≠ unknown) :
    c ≠ unknown := by
  rintro rfl
  exact h rfl

/-- Listing the leaves of what is run from a state leaves the list that has a state for each path. -/
theorem enumerated_threaded {c : Exploration V A} {s : V} {found : List (A × V)}
    (h : c.locally s = some found) : (c.threaded s).enumerated = leaf found := by
  induction c generalizing s found with
  | leaf a =>
    cases h
    rfl
  | fail =>
    cases h
    rfl
  | unknown => cases h
  | decide t f iht ihf =>
    obtain ⟨xs, hxs, hrest⟩ := Option.bind_eq_some_iff.1 h
    obtain ⟨ys, hys, rfl⟩ := Option.map_eq_some_iff.1 hrest
    rw [threaded, enumerated, iht hxs, ihf hys]
    rfl
  | get next ih => exact ih s h
  | put s rest ih => exact ih h

/-- Running the listing of all leaves from a state takes that state through all paths. -/
theorem threaded_enumerated {c : Exploration V A} {s : V} {found : List A × V}
    (h : c.shared s = some found) : c.enumerated.threaded s = leaf found := by
  induction c generalizing s found with
  | leaf a =>
    cases h
    rfl
  | fail =>
    cases h
    rfl
  | unknown => cases h
  | decide t f iht ihf =>
    obtain ⟨first, hfirst, hrest⟩ := Option.bind_eq_some_iff.1 h
    obtain ⟨second, hsecond, rfl⟩ := Option.map_eq_some_iff.1 hrest
    rw [enumerated, threaded_bind, iht hfirst, bind, threaded_bind, ihf hsecond]
    rfl
  | get next ih => exact ih s h
  | put s rest ih => exact ih h

end Exploration

variable {V A B : Type} {S : Scene V} {C : Course S} {L : Listener}

/-- What a run has ended as explores so, in all worlds from now on. Its leaves carry what the
exploration has there, and nothing is heard when it is resumed. -/
def Explores (C : Course S) (L : Listener) (Carries : Value → A → Prop) :
    Exploration V A → S.World → Ending → Prop
  | .leaf a, _, e => ∃ p tag x, e = .ok p ∧ Program.lift p = .leaf tag x ∧ Carries x a
  | .fail, _, e => ∃ tag resume, e = .ok (.operation tag failName [] resume)
  | .unknown, _, _ => True
  | .decide t f, w, e => ∃ tag resume, e = .ok (.operation tag decideName [] resume) ∧
      (t ≠ .unknown → Resumable C L resume (.bool true) w [] (Explores C L Carries t)) ∧
      (f ≠ .unknown → Resumable C L resume (.bool false) w [] (Explores C L Carries f))
  | .get next, w, e => ∃ tag resume, e = .ok (.operation tag getName [] resume) ∧
      ∀ u x, C.Later w u → S.Fit u x → next (S.see x) ≠ .unknown →
        Tells C L (Action.ask resume [x]) u [] (Explores C L Carries (next (S.see x)))
  | .put s rest, w, e => ∃ tag x resume, e = .ok (.operation tag putName [x] resume) ∧
      S.see x = s ∧ S.Fit w x ∧
      (rest ≠ .unknown → Resumable C L resume .nothing w [] (Explores C L Carries rest))

namespace Explores

variable {Carries : Value → A → Prop} {Carries' : Value → B → Prop} {c : Exploration V A}
  {w : S.World} {e : Ending}

theorem exists_ok (h : Explores C L Carries c w e) (hc : c ≠ .unknown) : ∃ p, e = .ok p := by
  cases c with
  | leaf a =>
    obtain ⟨p, tag, x, rfl, -⟩ := h
    exact ⟨p, rfl⟩
  | fail =>
    obtain ⟨tag, resume, rfl⟩ := h
    exact ⟨_, rfl⟩
  | unknown => exact absurd rfl hc
  | decide t f =>
    obtain ⟨tag, resume, rfl, -⟩ := h
    exact ⟨_, rfl⟩
  | get next =>
    obtain ⟨tag, resume, rfl, -⟩ := h
    exact ⟨_, rfl⟩
  | put s rest =>
    obtain ⟨tag, x, resume, rfl, -⟩ := h
    exact ⟨_, rfl⟩

/-- A program for its value makes no difference. -/
theorem lifted {v : Value} (h : Explores C L Carries c w (.ok v)) :
    Explores C L Carries c w (.ok (Program.lift v)) := by
  rcases Replay.lift_cases v with ⟨tag, name, params, resume, rfl⟩ | ⟨tag, x, hv⟩
  · exact h
  · have hnot {n : Nat} {name : String} {params : List Value} {resume : Value}
        (he : (Except.ok v : Ending) = .ok (.operation n name params resume)) : False := by
      cases he
      cases hv
    rw [hv]
    cases c with
    | leaf a =>
      obtain ⟨p, n, y, he, hp, hy⟩ := h
      cases he
      rw [hv] at hp
      cases hp
      exact ⟨_, tag, x, rfl, rfl, hy⟩
    | unknown => trivial
    | fail =>
      obtain ⟨_, _, he⟩ := h
      exact (hnot he).elim
    | decide t f =>
      obtain ⟨_, _, he, -⟩ := h
      exact (hnot he).elim
    | get next =>
      obtain ⟨_, _, he, -⟩ := h
      exact (hnot he).elim
    | put s rest =>
      obtain ⟨_, _, _, he, -⟩ := h
      exact (hnot he).elim

end Explores

/-- The function leads from what a leaf carries to what explores so. -/
def LeadsTo (C : Course S) (L : Listener) (Carries : Value → A → Prop) (Carries' : Value → B → Prop)
    (next : Value) (d : A → Exploration V B) (w : S.World) : Prop :=
  ∀ u x a, C.Later w u → Carries x a → d a ≠ .unknown →
    Tells C L (Action.ask next [x]) u [] (Explores C L Carries' (d a))

section Sequencing

variable {Carries : Value → A → Prop} {Carries' : Value → B → Prop} {next : Value}
  {d : A → Exploration V B} {w u : S.World}

theorem LeadsTo.later (h : LeadsTo C L Carries Carries' next d w) (hu : C.Later w u) :
    LeadsTo C L Carries Carries' next d u :=
  fun _ x a hz => h _ x a (C.trans hu hz)

/-- What comes of a resumption is gone on with. -/
theorem Explores.onward {c : Exploration V A} {a : Action Value} {k : Value → Action Value}
    {Q : S.World → Ending → Prop}
    (h : c ≠ .unknown → Tells C L a u [] (Explores C L Carries c)) (hc : c ≠ .unknown)
    (hk : ∀ z q, C.Later u z → Explores C L Carries c z (.ok q) → Tells C L (k q) z [] Q) :
    Tells C L (a.bind k) u [] Q := by
  refine .bind_silent ((h hc).mono fun z e hz he => ?_)
  obtain ⟨q, rfl⟩ := he.exists_ok hc
  exact ⟨q, rfl, hk z q hz he⟩

/-- Sequencing programs sequences what they explore. -/
theorem Explores.graft {c : Exploration V A} {p : Value} (hp : Explores C L Carries c w (.ok p))
    (hnext : next.isCallable = true) (hd : LeadsTo C L Carries Carries' next d w)
    (hc : c.bind d ≠ .unknown) :
    Tells C L (Program.graft p next) w [] (Lands (Explores C L Carries' (c.bind d))) := by
  induction c generalizing w p with
  | leaf a =>
    obtain ⟨_, tag, x, he, hlift, hx⟩ := hp
    cases he
    refine .graft_of_leaf hlift hnext ((hd w x a (C.refl w) hx hc).mono fun z e _ he => ?_)
    obtain ⟨q, rfl⟩ := he.exists_ok hc
    exact ⟨q, rfl, _, rfl, Program.isProgram_lift q, he.lifted⟩
  | fail =>
    obtain ⟨tag, resume, he⟩ := hp
    cases he
    rw [graft_operation hnext]
    exact .done ⟨_, rfl, rfl, _, _, rfl⟩
  | unknown => exact absurd rfl hc
  | decide t f iht ihf =>
    obtain ⟨tag, resume, he, htrue, hfalse⟩ := hp
    cases he
    rw [graft_operation hnext]
    refine .done ⟨_, rfl, rfl, _, _, rfl, fun hc u hu => ?_, fun hc u hu => ?_⟩
    · exact .ask rfl (onward (fun h => htrue h u hu) (Exploration.ne_unknown_of_bind hc)
        fun z q hz hq => (iht hq (hd.later (C.trans hu hz)) hc).landed)
    · exact .ask rfl (onward (fun h => hfalse h u hu) (Exploration.ne_unknown_of_bind hc)
        fun z q hz hq => (ihf hq (hd.later (C.trans hu hz)) hc).landed)
  | get following ih =>
    obtain ⟨tag, resume, he, hrest⟩ := hp
    cases he
    rw [graft_operation hnext]
    refine .done ⟨_, rfl, rfl, _, _, rfl, fun u x hu hx hc => ?_⟩
    exact .ask rfl (onward (hrest u x hu hx) (Exploration.ne_unknown_of_bind hc)
      fun z q hz hq => (ih _ hq (hd.later (C.trans hu hz)) hc).landed)
  | put s rest ih =>
    obtain ⟨tag, x, resume, he, hx, hfit, hrest⟩ := hp
    cases he
    rw [graft_operation hnext]
    refine .done ⟨_, rfl, rfl, _, _, _, rfl, hx, hfit, fun hc u hu => ?_⟩
    exact .ask rfl (onward (fun h => hrest h u hu) (Exploration.ne_unknown_of_bind hc)
      fun z q hz hq => (ih hq (hd.later (C.trans hu hz)) hc).landed)

end Sequencing

end AlgebraicEffects
