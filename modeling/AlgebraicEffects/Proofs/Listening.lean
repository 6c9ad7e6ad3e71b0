import AlgebraicEffects.Proofs.Handling
import AlgebraicEffects.Proofs.Replay.Coroutine

/-!
What is heard of a run.

A listener hears calls of certain values, such as a sink, and is deaf to the functions by which the
library puts programs together. `Tells` says that an action ends and what is heard meanwhile. Its
rules follow the ways in which actions are made, so that what is heard of a program under a handler is
what is heard of its parts, in order.
-/

set_option autoImplicit false

namespace AlgebraicEffects

open Action (Traced)

/-- Whether a function is one by which the library puts programs together. The others belong to
scripts or are given to the library from outside. -/
def Function.isInternal : Function → Bool
  | .closure _ _ _ _ | .generatorBody _ _ _ _ | .method _ | .boundTo _ _ | .binder _
  | .standardOutput => false
  | _ => true

/-- Who hears calls of some values. -/
structure Listener where
  hears : Value → Bool
  deaf (tag : Nat) {f : Function} : f.isInternal = true → hears (.function tag f) = false
  deaf_handler (tag : Nat) (table : Handler.Table) (atLeaf : Option Value) :
    hears (.handler tag table atLeaf) = false

variable {V : Type} {S : Scene V} {C : Course S} {L : Listener}

/-- What the values that are heard were called with, in order. -/
def Listener.heard (L : Listener) (S : Scene V) : List Call → List V :=
  collect fun
    | .mk callee arguments _ => if L.hears callee then arguments.positional.map S.see else []

theorem Listener.heard_append (cs ds : List Call) :
    L.heard S (cs ++ ds) = L.heard S cs ++ L.heard S ds :=
  collect_append _ cs ds

theorem Listener.heard_of_deaf {callee : Value} (h : L.hears callee = false)
    (arguments : Arguments Value) (inner : List Call) :
    L.heard S [.mk callee arguments inner] = L.heard S inner := by
  rw [heard, collect_singleton]
  simp [h]

theorem Listener.heard_of_hears {callee : Value} (h : L.hears callee = true)
    (arguments : Arguments Value) (inner : List Call) :
    L.heard S [.mk callee arguments inner] =
      arguments.positional.map S.see ++ L.heard S inner := by
  rw [heard, collect_singleton]
  simp only [h, if_true]

/-- The action ends so, and meanwhile this is heard. -/
def Tells (C : Course S) (L : Listener) (a : Action Value) (w : S.World) (said : List V)
    (Q : S.World → Ending → Prop) : Prop :=
  ∃ cs o z, Traced a (S.store w) cs o (S.store z) ∧ C.Later w z ∧ L.heard S cs = said ∧ Q z o

/-- It ends as a program, and so. -/
def Lands (Q : S.World → Ending → Prop) (w : S.World) (e : Ending) : Prop :=
  ∃ p : Value, e = .ok p ∧ p.isProgram = true ∧ Q w e

theorem Lands.holds {Q : S.World → Ending → Prop} {w : S.World} {e : Ending} (h : Lands Q w e) :
    Q w e := by
  obtain ⟨p, -, -, hQ⟩ := h
  exact hQ

/-- In all worlds from now on the continuation can be resumed with this answer. -/
def Resumable (C : Course S) (L : Listener) (resume answer : Value) (w : S.World) (said : List V)
    (Q : S.World → Ending → Prop) : Prop :=
  ∀ u, C.Later w u → Tells C L (Action.ask resume [answer]) u said Q

namespace Tells

variable {a : Action Value} {w : S.World} {said more : List V} {Q R : S.World → Ending → Prop}

theorem done {v : Value} (h : Q w (.ok v)) : Tells C L (.done v) w [] Q :=
  ⟨[], _, w, .done v _, C.refl w, rfl, h⟩

theorem mono (h : Tells C L a w said Q) (hQ : ∀ z e, C.Later w z → Q z e → R z e) :
    Tells C L a w said R := by
  obtain ⟨cs, o, z, htr, hz, hsaid, ho⟩ := h
  exact ⟨cs, o, z, htr, hz, hsaid, hQ z o hz ho⟩

theorem landed (h : Tells C L a w said (Lands Q)) : Tells C L a w said Q :=
  h.mono fun _ _ _ he => he.holds

theorem bind {k : Value → Action Value}
    (h : Tells C L a w said fun z e => ∃ v, e = .ok v ∧ Tells C L (k v) z more Q) :
    Tells C L (a.bind k) w (said ++ more) Q := by
  obtain ⟨cs, _, z, htr, hz, rfl, v, rfl, ds, e, u, hk, hu, rfl, he⟩ := h
  exact ⟨cs ++ ds, e, u, htr.bind hk, C.trans hz hu, L.heard_append cs ds, he⟩

/-- Where the first part is silent only the rest is heard. -/
theorem bind_silent {k : Value → Action Value}
    (h : Tells C L a w [] fun z e => ∃ v, e = .ok v ∧ Tells C L (k v) z said Q) :
    Tells C L (a.bind k) w said Q :=
  h.bind

theorem map {f : Value → Value}
    (h : Tells C L a w said fun z e => ∃ v, e = .ok v ∧ Q z (.ok (f v))) :
    Tells C L (f <$> a) w said Q := by
  rw [← List.append_nil said]
  exact Tells.bind (h.mono fun z e _ ⟨v, hv, hQ⟩ => ⟨v, hv, .done hQ⟩)

/-- A call that is not heard tells what the body tells. -/
theorem invoke {f : Value} {arguments : Arguments Value} (hf : L.hears f = false)
    (h : Tells C L (f.apply arguments) w said Q) : Tells C L (Action.invoke f arguments) w said Q := by
  obtain ⟨cs, o, z, htr, hz, rfl, ho⟩ := h
  exact ⟨_, o, z, htr.invoke, hz, L.heard_of_deaf hf arguments cs, ho⟩

/-- The same where something is done with what the call gives. -/
theorem invoke_bind {f : Value} {arguments : Arguments Value} {k : Value → Action Value}
    (hf : L.hears f = false) (h : Tells C L ((f.apply arguments).bind k) w said Q) :
    Tells C L ((Action.invoke f arguments).bind k) w said Q := by
  obtain ⟨cs, o, z, htr, hz, rfl, ho⟩ := h
  obtain ⟨ds, q, t, hbody⟩ := htr.exists_of_bind
  cases q with
  | ok v =>
    obtain ⟨es, rfl, hk⟩ := htr.of_bind hbody
    refine ⟨_, o, z, hbody.invoke.bind hk, hz, ?_, ho⟩
    rw [L.heard_append, L.heard_append, L.heard_of_deaf hf]
  | error g =>
    obtain ⟨rfl, rfl, rfl⟩ := htr.unique hbody.bind_error
    exact ⟨_, _, z, hbody.invoke.bind_error, hz, L.heard_of_deaf hf arguments cs, ho⟩

theorem ask {f : Function} {arguments : List Value} (hf : f.isInternal = true)
    (h : Tells C L (f.apply (.of arguments)) w said Q) :
    Tells C L (Action.ask (.arrowOf f) arguments) w said Q :=
  .invoke (L.deaf _ hf) h

/-- An implementation tells what its body tells. -/
theorem build {f : Function} {params : List Value} (hf : f.isInternal = true)
    (hscripted : (Value.arrowOf f).isScripted = false)
    (h : Tells C L (f.apply (.of params)) w said (Lands Q)) :
    Tells C L (Replay.build (.arrowOf f) (.tuple 0 params) [] (.tuple 0 [])) w said (Lands Q) := by
  obtain ⟨cs, _, z, htr, hz, rfl, p, rfl, hp, hQ⟩ := h
  exact ⟨_, _, z, Replay.traced_build hscripted hp htr, hz, L.heard_of_deaf (L.deaf _ hf) _ cs,
    p, rfl, hp, hQ⟩

/-- A graft on a leaf goes on with what the leaf carries. -/
theorem graft_of_leaf {p x next : Value} {tag : Nat} (hp : Program.lift p = .leaf tag x)
    (hnext : next.isCallable = true)
    (h : Tells C L (Action.ask next [x]) w said fun z e =>
      ∃ v, e = .ok v ∧ Q z (.ok (Program.lift v))) :
    Tells C L (Program.graft p next) w said Q := by
  rw [Replay.graft_of_leaf hp hnext]
  exact h.map

/-- Mapping over a leaf maps what it carries. -/
theorem map_of_leaf {p x mapper : Value} {tag : Nat} (hp : Program.lift p = .leaf tag x)
    (hmapper : mapper.isCallable = true)
    (h : Tells C L (Action.ask mapper [x]) w said fun z e =>
      ∃ v, e = .ok v ∧ Q z (.ok (.leaf 0 v))) :
    Tells C L (Program.map p mapper) w said Q := by
  rw [Program.map, if_pos hmapper]
  refine .graft_of_leaf hp rfl (.ask rfl ?_)
  rw [← List.append_nil said]
  exact Tells.bind (h.mono fun z e _ ⟨v, hv, hQ⟩ => ⟨v, hv, .done ⟨_, rfl, hQ⟩⟩)

/-- What is resumed under a handler goes on under it. -/
theorem under {table : Handler.Table} {atLeaf : Option Value} {resume answer : Value}
    (h : Tells C L (Action.ask resume [answer]) w said fun z e =>
      ∃ p, e = .ok p ∧ Tells C L (Handler.evaluate table atLeaf p) z more Q) :
    Tells C L (Action.ask (.arrowOf (.under table atLeaf resume)) [answer]) w (said ++ more) Q :=
  .ask rfl h.bind

/-- A handler that is applied as the last one is called on the program. -/
theorem applied {h p : Value} (hp : p.isProgram = true)
    (hcall : Tells C L (Action.ask h [p]) w said (Lands Q)) :
    Tells C L (Handler.applyAll p [h]) w said Q := by
  have hlift {q : Value} (hq : q.isProgram = true) : Program.lift q = q := if_pos hq
  rw [Handler.applyAll_cons, hlift hp, ← List.append_nil said]
  refine Tells.bind (hcall.mono fun z e _ he => ?_)
  obtain ⟨q, rfl, hq, hQ⟩ := he
  refine ⟨q, rfl, ?_⟩
  rw [Handler.applyAll_nil, hlift hq]
  exact .done hQ

end Tells

/-- A sink can be called with any message, and is heard to be called once. -/
structure Sink (C : Course S) (L : Listener) (sink : Value) : Prop where
  callable : sink.isCallable = true
  hears : L.hears sink = true
  receives (w : S.World) (message : Value) : ∃ cs r z,
    Traced (sink.apply (.of [message])) (S.store w) cs (.ok r) (S.store z) ∧ C.Later w z ∧
      L.heard S cs = []

/-- Giving a message to the sink is heard. -/
theorem Sink.tells {sink : Value} (h : Sink C L sink) (w : S.World) (message : Value) :
    Tells C L (Action.ask sink [message]) w [S.see message] fun _ e => ∃ r, e = .ok r := by
  obtain ⟨cs, r, z, htr, hz, hsilent⟩ := h.receives w message
  refine ⟨_, .ok r, z, htr.invoke, hz, ?_, r, rfl⟩
  rw [L.heard_of_hears h.hears, hsilent]
  rfl

/-- Hears nothing. -/
def Listener.nobody : Listener where
  hears _ := false
  deaf _ _ _ := rfl
  deaf_handler _ _ _ := rfl

theorem Listener.heard_nobody (cs : List Call) : Listener.nobody.heard S cs = [] := by
  have hnothing : (fun c : Call => match c with
      | .mk callee arguments _ =>
        if Listener.nobody.hears callee then arguments.positional.map S.see else []) =
      fun _ => [] := funext fun c => by cases c; rfl
  rw [heard, hnothing, collect_nothing]

/-- The action ends so. -/
abbrev Ends (C : Course S) (a : Action Value) (w : S.World) (Q : S.World → Ending → Prop) : Prop :=
  Tells C .nobody a w [] Q

theorem ends_of_runs {a : Action Value} {w z : S.World} {e : Ending} {Q : S.World → Ending → Prop}
    (h : Action.Runs Value.apply a (S.store w) e (S.store z)) (hz : C.Later w z) (hQ : Q z e) :
    Ends C a w Q := by
  obtain ⟨cs, htr⟩ := h.exists_traced
  exact ⟨cs, e, z, htr, hz, Listener.heard_nobody cs, hQ⟩

/-- It ends so if its first part gives a value with which the rest does. -/
theorem ends_bind_of_runs {α : Type} {a : Action α} {k : α → Action Value} {x : α} {w z : S.World}
    {Q : S.World → Ending → Prop} (h : Action.Runs Value.apply a (S.store w) (.ok x) (S.store z))
    (hz : C.Later w z) (hk : Ends C (k x) z Q) : Ends C (a.bind k) w Q := by
  obtain ⟨cs, htr⟩ := h.exists_traced
  obtain ⟨ds, e, u, hrest, hu, -, hQ⟩ := hk
  exact ⟨cs ++ ds, e, u, htr.bind hrest, C.trans hz hu, Listener.heard_nobody _, hQ⟩

end AlgebraicEffects
