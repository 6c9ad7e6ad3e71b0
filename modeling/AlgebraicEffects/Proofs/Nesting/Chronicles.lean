import AlgebraicEffects.Effects.Choice
import AlgebraicEffects.Effects.Log
import AlgebraicEffects.Proofs.Listening

/-!
Programs that search with a log.

A chronicle is what a program over choice and logging does: it ends at leaves and at failures, it
decides, and it logs messages. It is read in two ways. Every path may have a log of its own
(`Chronicle.locally`), or all paths may write into one log, in order (`Chronicle.leaves`,
`Chronicle.messages`).

Two rewritings of chronicles go before them. One gathers on every path what is logged on it and leaves
the decisions (`gathered`), and one lists the leaves of all paths and leaves what is logged
(`enumerated`). Either of them takes what the other has left to an end, and the two orders are the two
readings (`enumerated_gathered`, `gathered_enumerated`).

A program keeps a chronicle when its continuations, resumed in any world from now on and any number of
times, come to the parts of the chronicle (`Chronicles`).
-/

set_option autoImplicit false

namespace AlgebraicEffects

open Choice (decideName failName)
open Log (logName)

/-- What a program does that decides, fails and logs. -/
inductive Chronicle (V A : Type) where
  | leaf (a : A)
  | fail
  | decide (whenTrue whenFalse : Chronicle V A)
  | log (m : V) (rest : Chronicle V A)

namespace Chronicle

variable {V A B D : Type}

/-- The leaves of the paths that do not fail, true in front, each with what is logged on its path. -/
def locally : Chronicle V A → List (A × List V)
  | leaf a => [(a, [])]
  | fail => []
  | decide t f => t.locally ++ f.locally
  | log m rest => rest.locally.map fun (a, ms) => (a, m :: ms)

/-- The leaves, true in front. -/
def leaves : Chronicle V A → List A
  | leaf a => [a]
  | fail => []
  | decide t f => t.leaves ++ f.leaves
  | log _ rest => rest.leaves

/-- The messages of all paths, true in front, each one before those behind it. -/
def messages : Chronicle V A → List V
  | leaf _ => []
  | fail => []
  | decide t f => t.messages ++ f.messages
  | log m rest => m :: rest.messages

/-- The chronicle with chronicles in the place of its leaves. -/
def bind (d : A → Chronicle V B) : Chronicle V A → Chronicle V B
  | leaf a => d a
  | fail => fail
  | decide t f => decide (t.bind d) (f.bind d)
  | log m rest => log m (rest.bind d)

/-- A message in front of those that have been gathered. -/
def noted (m : V) (found : A × List V) : Chronicle V (A × List V) := leaf (found.1, m :: found.2)

/-- The decisions that are left when what is logged on a path is gathered at its leaf. -/
def gathered : Chronicle V A → Chronicle V (A × List V)
  | leaf a => leaf (a, [])
  | fail => fail
  | decide t f => decide t.gathered f.gathered
  | log m rest => rest.gathered.bind (noted m)

/-- What is left to be logged when both answers of every decision are followed. -/
def enumerated : Chronicle V A → Chronicle V (List A)
  | leaf a => leaf [a]
  | fail => leaf []
  | decide t f => t.enumerated.bind fun xs => f.enumerated.bind fun ys => leaf (xs ++ ys)
  | log m rest => log m rest.enumerated

theorem bind_assoc (c : Chronicle V A) (d : A → Chronicle V B) (k : B → Chronicle V D) :
    (c.bind d).bind k = c.bind fun a => (d a).bind k := by
  induction c with
  | leaf a => rfl
  | fail => rfl
  | decide t f iht ihf => rw [bind, bind, iht, ihf, bind]
  | log m rest ih => rw [bind, bind, ih, bind]

/-- Listing the leaves of what has changed at its leaves only. -/
theorem enumerated_bind_leaf (c : Chronicle V A) (f : A → B) :
    (c.bind fun a => leaf (f a)).enumerated = c.enumerated.bind fun xs => leaf (xs.map f) := by
  induction c with
  | leaf a => rfl
  | fail => rfl
  | decide t g iht ihg => simp only [bind, enumerated, iht, ihg, bind_assoc, List.map_append]
  | log m rest ih => rw [bind, enumerated, ih, enumerated, bind]

/-- Listing the leaves of what has been gathered leaves the list that has a log for each path. -/
theorem enumerated_gathered (c : Chronicle V A) : c.gathered.enumerated = leaf c.locally := by
  induction c with
  | leaf a => rfl
  | fail => rfl
  | decide t f iht ihf =>
    rw [gathered, enumerated, iht, ihf]
    rfl
  | log m rest ih =>
    refine (enumerated_bind_leaf rest.gathered fun found => (found.1, m :: found.2)).trans ?_
    rw [ih]
    rfl

/-- What has been gathered in front comes first. -/
theorem gathered_bind (c : Chronicle V A) (d : A → Chronicle V B) : (c.bind d).gathered =
    c.gathered.bind fun found => (d found.1).gathered.bind fun next =>
      leaf (next.1, found.2 ++ next.2) := by
  have hright (c : Chronicle V (B × List V)) : (c.bind fun next => leaf (next.1, next.2)) = c := by
    induction c with
    | leaf a => rfl
    | fail => rfl
    | decide t f iht ihf => rw [bind, iht, ihf]
    | log m rest ih => rw [bind, ih]
  induction c with
  | leaf a => exact (hright _).symm
  | fail => rfl
  | decide t f iht ihf => simp only [bind, gathered, iht, ihf]
  | log m rest ih =>
    rw [bind, gathered, ih, gathered, bind_assoc, bind_assoc]
    exact congrArg (rest.gathered.bind ·) (funext fun found => bind_assoc _ _ _)

/-- Gathering what is logged while all leaves are listed takes it from all paths. -/
theorem gathered_enumerated (c : Chronicle V A) :
    c.enumerated.gathered = leaf (c.leaves, c.messages) := by
  induction c with
  | leaf a => rfl
  | fail => rfl
  | decide t f iht ihf =>
    rw [enumerated, gathered_bind, iht, bind, gathered_bind, ihf]
    simp only [bind, gathered, List.append_nil]
    rfl
  | log m rest ih =>
    rw [enumerated, gathered, ih]
    rfl

end Chronicle

variable {V A B : Type} {S : Scene V} {C : Course S} {L : Listener}

/-- What a run has ended as keeps this chronicle, in all worlds from now on. Its leaves carry what the
chronicle has there, and nothing is heard when it is resumed. -/
def Chronicles (C : Course S) (L : Listener) (Carries : Value → A → Prop) :
    Chronicle V A → S.World → Ending → Prop
  | .leaf a, _, e => ∃ p tag x, e = .ok p ∧ Program.lift p = .leaf tag x ∧ Carries x a
  | .fail, _, e => ∃ tag resume, e = .ok (.operation tag failName [] resume)
  | .decide t f, w, e => ∃ tag resume, e = .ok (.operation tag decideName [] resume) ∧
      Resumable C L resume (.bool true) w [] (Chronicles C L Carries t) ∧
      Resumable C L resume (.bool false) w [] (Chronicles C L Carries f)
  | .log m rest, w, e => ∃ tag x resume, e = .ok (.operation tag logName [x] resume) ∧
      S.see x = m ∧ Resumable C L resume .nothing w [] (Chronicles C L Carries rest)

namespace Chronicles

variable {Carries : Value → A → Prop} {Carries' : Value → B → Prop} {c : Chronicle V A}
  {w u : S.World} {e : Ending}

theorem exists_ok (h : Chronicles C L Carries c w e) : ∃ p, e = .ok p := by
  cases c with
  | leaf a =>
    obtain ⟨p, tag, x, rfl, -⟩ := h
    exact ⟨p, rfl⟩
  | fail =>
    obtain ⟨tag, resume, rfl⟩ := h
    exact ⟨_, rfl⟩
  | decide t f =>
    obtain ⟨tag, resume, rfl, -⟩ := h
    exact ⟨_, rfl⟩
  | log m rest =>
    obtain ⟨tag, x, resume, rfl, -⟩ := h
    exact ⟨_, rfl⟩

/-- A program for its value makes no difference. -/
theorem lifted {v : Value} (h : Chronicles C L Carries c w (.ok v)) :
    Chronicles C L Carries c w (.ok (Program.lift v)) := by
  rcases Replay.lift_cases v with ⟨tag, name, params, resume, rfl⟩ | ⟨tag, x, hv⟩
  · exact h
  · have hnot {n : Nat} {name : String} {params : List Value} {resume : Value}
        (he : (Except.ok v : Ending) = .ok (.operation n name params resume)) : False := by
      cases he
      cases hv
    rw [hv]
    cases c with
    | leaf a =>
      obtain ⟨p, n, y, he, hp, hy⟩ := h
      cases he
      rw [hv] at hp
      cases hp
      exact ⟨_, tag, x, rfl, rfl, hy⟩
    | fail =>
      obtain ⟨_, _, he⟩ := h
      exact (hnot he).elim
    | decide t f =>
      obtain ⟨_, _, he, -⟩ := h
      exact (hnot he).elim
    | log m rest =>
      obtain ⟨_, _, _, he, -⟩ := h
      exact (hnot he).elim

/-- What comes of a resumption is gone on with. -/
theorem onward {a : Action Value} {k : Value → Action Value} {Q : S.World → Ending → Prop}
    (h : Tells C L a u [] (Chronicles C L Carries c))
    (hk : ∀ z q, C.Later u z → Chronicles C L Carries c z (.ok q) → Tells C L (k q) z [] Q) :
    Tells C L (a.bind k) u [] Q := by
  refine .bind_silent (h.mono fun z e hz he => ?_)
  obtain ⟨q, rfl⟩ := he.exists_ok
  exact ⟨q, rfl, hk z q hz he⟩

/-- So it is wherever the continuation is resumed. -/
theorem resumed {f : Function} {resume answer : Value} {k : Value → Action Value}
    {Q : S.World → Ending → Prop} (hf : f.isInternal = true)
    (hbody : f.apply (.of [answer]) = (Action.ask resume [answer]).bind k)
    (h : Resumable C L resume answer w [] (Chronicles C L Carries c))
    (hk : ∀ z q, C.Later w z → Chronicles C L Carries c z (.ok q) → Tells C L (k q) z [] (Lands Q)) :
    Resumable C L (.arrowOf f) answer w [] Q := by
  intro u hu
  refine .ask hf ?_
  rw [hbody]
  exact onward (h u hu) fun z q hz hq => (hk z q (C.trans hu hz) hq).landed

/-- Sequencing programs sequences their chronicles. -/
theorem graft {p next : Value} {d : A → Chronicle V B} (hp : Chronicles C L Carries c w (.ok p))
    (hnext : next.isCallable = true)
    (hd : ∀ u x a, C.Later w u → Carries x a →
      Tells C L (Action.ask next [x]) u [] (Chronicles C L Carries' (d a))) :
    Tells C L (Program.graft p next) w [] (Lands (Chronicles C L Carries' (c.bind d))) := by
  induction c generalizing w p with
  | leaf a =>
    obtain ⟨_, tag, x, he, hlift, hx⟩ := hp
    cases he
    refine .graft_of_leaf hlift hnext ((hd w x a (C.refl w) hx).mono fun z e _ he => ?_)
    obtain ⟨q, rfl⟩ := he.exists_ok
    exact ⟨q, rfl, _, rfl, Program.isProgram_lift q, he.lifted⟩
  | fail =>
    obtain ⟨tag, resume, he⟩ := hp
    cases he
    rw [graft_operation hnext]
    exact .done ⟨_, rfl, rfl, _, _, rfl⟩
  | decide t f iht ihf =>
    obtain ⟨tag, resume, he, htrue, hfalse⟩ := hp
    cases he
    rw [graft_operation hnext]
    exact .done ⟨_, rfl, rfl, _, _, rfl,
      resumed rfl rfl htrue fun z q hz hq => iht hq fun u x a hu => hd u x a (C.trans hz hu),
      resumed rfl rfl hfalse fun z q hz hq => ihf hq fun u x a hu => hd u x a (C.trans hz hu)⟩
  | log m rest ih =>
    obtain ⟨tag, x, resume, he, hx, hrest⟩ := hp
    cases he
    rw [graft_operation hnext]
    exact .done ⟨_, rfl, rfl, _, _, _, rfl, hx,
      resumed rfl rfl hrest fun z q hz hq => ih hq fun u x a hu => hd u x a (C.trans hz hu)⟩

end Chronicles

end AlgebraicEffects
